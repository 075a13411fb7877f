import Dynarec.Lower.Block
import Dynarec.Proofs.Host.Running

/-!
# What emitted code does

`Lowering.wp s act E Q b h m` speaks about one step of a lowering and about the code that it emits
at once.  Whenever `act` succeeds from the builder `b`, it emits straight code, and running that
code from the host registers `h` and the machine `m` ends with `Q`, or stops with an outcome that
satisfies `E`.  One rule for each way of composing steps (`wp_bind`, `wp_pure`, ...) reduces a
lowering rule to its primitive actions.
-/

namespace Dynarec

/-- Emit operations in order. -/
def CodeSpace.emitOps (c : CodeSpace) (ops : List Operation) : CodeSpace :=
  ops.foldl (fun c op => c.emit op.encode) c

theorem CodeSpace.emitOps_append (c : CodeSpace) (xs ys : List Operation) :
    c.emitOps (xs ++ ys) = (c.emitOps xs).emitOps ys := List.foldl_append

namespace Outcome

theorem next_or_stops (outcome : Outcome) :
    (∃ h m, outcome = .next h m) ∨ Host.Stops outcome := by
  cases outcome with
  | next h m => exact .inl ⟨h, m, rfl⟩
  | jump target h m => exact .inr trivial
  | exit reason h m => exact .inr trivial
  | broken v => exact .inr trivial

/-- The code ran to its end with `Q`, or stopped with `E`. -/
def Yields (outcome : Outcome) (E : Outcome → Prop) (Q : HostState → Machine → Prop) : Prop :=
  match outcome with
  | .next h m => Q h m
  | outcome => E outcome

variable {outcome : Outcome} {E E' : Outcome → Prop} {Q Q' : HostState → Machine → Prop}

theorem yields_of_stops (hstop : Host.Stops outcome) : outcome.Yields E Q ↔ E outcome := by
  cases outcome with
  | next h m => exact hstop.elim
  | jump target h m => exact Iff.rfl
  | exit reason h m => exact Iff.rfl
  | broken v => exact Iff.rfl

theorem Yields.imp (hy : outcome.Yields E Q) (hE : ∀ o, E o → E' o)
    (hQ : ∀ h m, Q h m → Q' h m) : outcome.Yields E' Q' := by
  rcases outcome.next_or_stops with ⟨h, m, rfl⟩ | hstop
  · exact hQ h m hy
  · rw [yields_of_stops hstop] at hy ⊢
    exact hE outcome hy

end Outcome

namespace Host

variable {E : Outcome → Prop} {Q : HostState → Machine → Prop}

/-- Code that stopped does not run what follows. -/
theorem runOps_append_of_stops {xs : List Operation} {h : HostState} {m : Machine}
    (hstop : Stops (runOps xs h m)) (ys : List Operation) :
    runOps (xs ++ ys) h m = runOps xs h m := by
  rw [runOps_append]
  cases hrun : runOps xs h m with
  | next h' m' =>
    rw [hrun] at hstop
    exact hstop.elim
  | jump target h' m' => rfl
  | exit reason h' m' => rfl
  | broken v => rfl

theorem yields_append {xs ys : List Operation} {h : HostState} {m : Machine}
    (hx : (runOps xs h m).Yields E fun h m => (runOps ys h m).Yields E Q) :
    (runOps (xs ++ ys) h m).Yields E Q := by
  rcases (runOps xs h m).next_or_stops with ⟨h', m', hrun⟩ | hstop
  · rw [hrun] at hx
    rw [runOps_append, hrun]
    exact hx
  · rw [Outcome.yields_of_stops hstop] at hx
    rwa [runOps_append_of_stops hstop, Outcome.yields_of_stops hstop]

end Host

/-- The operation is part of straight code: it goes on with the next word, unless it fails. -/
def Operation.Inline : Operation → Prop
  | .jump _ | .jumpIf _ _ | .exitDispatch _ | .exitDispatchReg _ | .exitInterpret _ => False
  | .exitSyscall _ _ | .exitBreak _ | .guardModifiers _ | .checkEntry _ _ => False
  | _ => True

/-- **Straight code is appended**, and nothing else of the code changes. -/
structure Builder.Emits (b b' : Builder) (ops : List Operation) : Prop where
  code : b'.code = b.code.emitOps ops
  exits : b'.exits = b.exits
  inline : ∀ op ∈ ops, op.Inline

namespace Builder.Emits

variable {b b' b'' : Builder} {xs ys : List Operation}

theorem nothing (hcode : b'.code = b.code) (hexits : b'.exits = b.exits) : Emits b b' [] :=
  ⟨hcode, hexits, nofun⟩

theorem trans (hx : Emits b b' xs) (hy : Emits b' b'' ys) : Emits b b'' (xs ++ ys) where
  code := by rw [hy.code, hx.code, CodeSpace.emitOps_append]
  exits := hy.exits.trans hx.exits
  inline op hop := (List.mem_append.mp hop).elim (hx.inline op) (hy.inline op)

end Builder.Emits

namespace Lowering

variable {α β : Type} {s : Setting} {E : Outcome → Prop}
  {b : Builder} {h : HostState} {m : Machine}

/-- **What a step does and what the code that it emits does.** -/
def wp (s : Setting) (act : Lowering α) (E : Outcome → Prop)
    (Q : α → Builder → HostState → Machine → Prop) (b : Builder) (h : HostState) (m : Machine) :
    Prop :=
  ∀ x b', act s b = .ok (x, b') →
    ∃ ops, b.Emits b' ops ∧ (Host.runOps ops h m).Yields E (Q x b')

/-- A step that succeeds is made of steps that succeed. -/
theorem bind_eq_ok {act : Lowering α} {f : α → Lowering β} {b'' : Builder} {y : β}
    (hok : (act >>= f) s b = .ok (y, b'')) :
    ∃ x b', act s b = .ok (x, b') ∧ f x s b' = .ok (y, b'') := by
  have heq : (act >>= f) s b = (act s b >>= fun p => f p.1 s p.2) := rfl
  rw [heq] at hok
  cases hx : act s b with
  | error e => rw [hx] at hok; cases hok
  | ok p => exact ⟨p.1, p.2, rfl, by rw [hx] at hok; exact hok⟩

/-! ### Straight code -/

/-- **A step that only emits straight code**, and does not move the lowering on. -/
def Straight (s : Setting) (act : Lowering α) : Prop :=
  ∀ b x b', act s b = .ok (x, b') → ∃ ops, b.Emits b' ops ∧ b'.progress = b.progress

theorem straight_pure (x : α) : Straight s (pure x) := by
  intro b y b' hok
  cases hok
  exact ⟨[], .nothing rfl rfl, rfl⟩

theorem straight_bind {act : Lowering α} {f : α → Lowering β} (hact : Straight s act)
    (hf : ∀ x, Straight s (f x)) : Straight s (act >>= f) := by
  intro b y b'' hok
  obtain ⟨x, b', hx, hy⟩ := bind_eq_ok hok
  obtain ⟨xs, hxs, hpx⟩ := hact b x b' hx
  obtain ⟨ys, hys, hpy⟩ := hf x b' y b'' hy
  exact ⟨xs ++ ys, hxs.trans hys, hpy.trans hpx⟩

theorem straight_get : Straight s (get : Lowering Builder) := by
  intro b y b' hok
  cases hok
  exact ⟨[], .nothing rfl rfl, rfl⟩

theorem straight_read : Straight s (read : Lowering Setting) := by
  intro b y b' hok
  cases hok
  exact ⟨[], .nothing rfl rfl, rfl⟩

theorem straight_throw (e : Failure) : Straight s (throw e : Lowering α) := by
  intro b y b' hok
  cases hok

theorem straight_modify {f : Builder → Builder} (hcode : ∀ b, (f b).code = b.code)
    (hexits : ∀ b, (f b).exits = b.exits) (hprogress : ∀ b, (f b).progress = b.progress) :
    Straight s (modify f : Lowering Unit) := by
  intro b y b' hok
  cases hok
  exact ⟨[], .nothing (hcode b) (hexits b), hprogress b⟩

theorem straight_emit {op : Operation} (hop : op.Inline) : Straight s (emit op) := by
  intro b y b' hok
  cases hok
  exact ⟨[op], ⟨rfl, rfl, by simpa using hop⟩, rfl⟩

/-! ### Rules -/

/-- No outcome. -/
def Never : Outcome → Prop := fun _ => False

/-- **A step after one whose code does not stop.** -/
theorem wp_bind {act : Lowering α} {f : α → Lowering β}
    {Q : β → Builder → HostState → Machine → Prop}
    (hact : wp s act Never (fun x b h m => wp s (f x) E Q b h m) b h m) :
    wp s (act >>= f) E Q b h m := by
  intro y b'' hok
  obtain ⟨x, b', hx, hy⟩ := bind_eq_ok hok
  obtain ⟨xs, hemits, hyields⟩ := hact x b' hx
  rcases (Host.runOps xs h m).next_or_stops with ⟨h', m', hrun⟩ | hstop
  · rw [hrun] at hyields
    obtain ⟨ys, hemits', hyields'⟩ := hyields y b'' hy
    refine ⟨xs ++ ys, hemits.trans hemits', Host.yields_append ?_⟩
    rw [hrun]
    exact hyields'
  · rw [Outcome.yields_of_stops hstop] at hyields
    exact hyields.elim

/-- **A step after one whose code may stop.** -/
theorem wp_bind_straight {act : Lowering α} {f : α → Lowering β}
    {Q : β → Builder → HostState → Machine → Prop} (hf : ∀ x, Straight s (f x))
    (hact : wp s act E (fun x b h m => wp s (f x) E Q b h m) b h m) :
    wp s (act >>= f) E Q b h m := by
  intro y b'' hok
  obtain ⟨x, b', hx, hy⟩ := bind_eq_ok hok
  obtain ⟨xs, hemits, hyields⟩ := hact x b' hx
  rcases (Host.runOps xs h m).next_or_stops with ⟨h', m', hrun⟩ | hstop
  · rw [hrun] at hyields
    obtain ⟨ys, hemits', hyields'⟩ := hyields y b'' hy
    refine ⟨xs ++ ys, hemits.trans hemits', Host.yields_append ?_⟩
    rw [hrun]
    exact hyields'
  · obtain ⟨ys, hemits', -⟩ := hf x b' y b'' hy
    refine ⟨xs ++ ys, hemits.trans hemits', ?_⟩
    rw [Outcome.yields_of_stops hstop] at hyields
    rwa [Host.runOps_append_of_stops hstop, Outcome.yields_of_stops hstop]

theorem wp_imp {act : Lowering α} {Q Q' : α → Builder → HostState → Machine → Prop}
    (hact : wp s act E Q b h m) (hQ : ∀ x b h m, Q x b h m → Q' x b h m) :
    wp s act E Q' b h m := by
  intro x b' hok
  obtain ⟨ops, hemits, hyields⟩ := hact x b' hok
  exact ⟨ops, hemits, hyields.imp (fun _ h => h) (hQ x b')⟩

/-- Code that does not stop may be allowed to. -/
theorem wp_of_never {act : Lowering α} {Q : α → Builder → HostState → Machine → Prop}
    (hact : wp s act Never Q b h m) : wp s act E Q b h m := by
  intro x b' hok
  obtain ⟨ops, hemits, hyields⟩ := hact x b' hok
  exact ⟨ops, hemits, hyields.imp (fun _ h => h.elim) (fun _ _ h => h)⟩

theorem wp_pure {x : α} {Q : α → Builder → HostState → Machine → Prop} (hQ : Q x b h m) :
    wp s (pure x) E Q b h m := by
  intro y b' hok
  cases hok
  exact ⟨[], .nothing rfl rfl, hQ⟩

theorem wp_get {Q : Builder → Builder → HostState → Machine → Prop} (hQ : Q b b h m) :
    wp s get E Q b h m := by
  intro y b' hok
  cases hok
  exact ⟨[], .nothing rfl rfl, hQ⟩

theorem wp_read {Q : Setting → Builder → HostState → Machine → Prop} (hQ : Q s b h m) :
    wp s read E Q b h m := by
  intro y b' hok
  cases hok
  exact ⟨[], .nothing rfl rfl, hQ⟩

theorem wp_throw {e : Failure} {Q : α → Builder → HostState → Machine → Prop} :
    wp s (throw e) E Q b h m := by
  intro y b' hok
  cases hok

theorem wp_modify {f : Builder → Builder} {Q : Unit → Builder → HostState → Machine → Prop}
    (hcode : (f b).code = b.code) (hexits : (f b).exits = b.exits) (hQ : Q () (f b) h m) :
    wp s (modify f) E Q b h m := by
  intro y b' hok
  cases hok
  exact ⟨[], .nothing hcode hexits, hQ⟩

theorem wp_emit {op : Operation} {Q : Unit → Builder → HostState → Machine → Prop}
    (hop : op.Inline)
    (hrun : (op.perform h m).Yields E (Q () { b with code := b.code.emit op.encode })) :
    wp s (emit op) E Q b h m := by
  intro y b' hok
  cases hok
  refine ⟨[op], ⟨rfl, rfl, by simpa using hop⟩, ?_⟩
  rcases (op.perform h m).next_or_stops with ⟨h', m', hperform⟩ | hstop
  · rw [Host.runOps_cons_next hperform]
    rw [hperform] at hrun
    exact hrun
  · have hsame : Host.runOps [op] h m = op.perform h m := by
      rw [Host.runOps]
      cases hperform : op.perform h m with
      | next h' m' => rw [hperform] at hstop; exact hstop.elim
      | jump target h' m' => rfl
      | exit reason h' m' => rfl
      | broken v => rfl
    rw [hsame, Outcome.yields_of_stops hstop]
    rwa [Outcome.yields_of_stops hstop] at hrun

/-- An operation that goes on. -/
theorem wp_emit_next {op : Operation} {h' : HostState} {m' : Machine}
    {Q : Unit → Builder → HostState → Machine → Prop} (hop : op.Inline)
    (hperform : op.perform h m = .next h' m')
    (hQ : Q () { b with code := b.code.emit op.encode } h' m') : wp s (emit op) E Q b h m := by
  refine wp_emit hop ?_
  rw [hperform]
  exact hQ

end Lowering

end Dynarec
