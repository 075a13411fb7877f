import Dynarec.Proofs.Lower.Actions
import Mathlib.Data.Fintype.Card
import Mathlib.Algebra.GroupWithZero.Nat
import Mathlib.Algebra.Order.Group.Nat
import Mathlib.Algebra.Order.Pi
import Mathlib.Algebra.Group.Pi.Lemmas

/-!
# Registers do not run out

An instruction is not lowered only for want of a register.  Each kind of register is a `Pool` of
fixed size, and `taken` counts the registers of each pool that may not be taken again within the
instruction: locked slots and temporaries in use.  `Supplied s act b` says that every request of
`act` finds a register that may be taken.  `Takes s act d` says that `act` is supplied and succeeds
whenever `d` registers are left, and takes no more than them; demands of steps add up (`takes_bind`,
`takes_mapM`).
-/

namespace Dynarec

namespace SlotArena

variable {n : Nat} {G : Type} {a b : SlotArena n G}

/-! ### Slots that may not be taken -/

/-- The slots that are locked. -/
def lockedSlots (a : SlotArena n G) : Finset (Fin n) := Finset.univ.filter fun i => a.locked i = true

theorem mem_lockedSlots {i : Fin n} : i ∈ a.lockedSlots ↔ a.locked i = true := by
  rw [lockedSlots, Finset.mem_filter]
  exact and_iff_right (Finset.mem_univ i)

theorem lockedSlots_congr (h : ∀ i, b.locked i = a.locked i) : b.lockedSlots = a.lockedSlots := by
  ext i
  rw [mem_lockedSlots, mem_lockedSlots, h]

/-- **Locking one slot takes at most one.** -/
theorem card_lockedSlots_le {i : Fin n} (h : ∀ j, i ≠ j → b.locked j = a.locked j) :
    b.lockedSlots.card ≤ a.lockedSlots.card + 1 := by
  refine (Finset.card_le_card fun j hj => ?_).trans (Finset.card_insert_le i a.lockedSlots)
  by_cases hij : i = j
  · rw [hij]
    exact Finset.mem_insert_self j _
  · rw [mem_lockedSlots, h j hij, ← mem_lockedSlots] at hj
    exact Finset.mem_insert_of_mem hj

theorem card_lockedSlots_eq_zero (h : ∀ i, a.locked i = false) : a.lockedSlots.card = 0 := by
  rw [Finset.card_eq_zero, Finset.eq_empty_iff_forall_notMem]
  intro i hi
  rw [mem_lockedSlots, h] at hi
  cases hi

/-- When some slot is not locked, one is found. -/
theorem exists_unlocked (h : a.lockedSlots.card < n) : ∃ i, a.locked i = false := by
  by_contra hnone
  have hall : a.lockedSlots = Finset.univ := by
    ext i
    have hi : a.locked i = true := Bool.not_eq_false _ ▸ fun hi => hnone ⟨i, hi⟩
    exact iff_of_true (mem_lockedSlots.mpr hi) (Finset.mem_univ i)
  rw [hall, Finset.card_univ, Fintype.card_fin] at h
  exact Nat.lt_irrefl n h

/-! ### A slot is offered -/

theorem isSome_foldl_older (a : SlotArena n G) {l : List (Fin n)} {best : Option (Fin n)}
    (h : l ≠ [] ∨ best.isSome = true) : (l.foldl a.older best).isSome = true := by
  induction l generalizing best with
  | nil => exact h.resolve_left (not_not_intro rfl)
  | cons i rest ih =>
    refine ih (.inr ?_)
    cases best with
    | none => rfl
    | some j =>
      rw [older]
      split <;> rfl

theorem isSome_leastRecent? {i : Fin n} (hi : a.locked i = false) :
    (a.leastRecent? (a.isDirty i)).isSome = true := by
  refine isSome_foldl_older a (.inl (List.ne_nil_of_mem (a := i) ?_))
  rw [List.mem_filter]
  refine ⟨List.mem_finRange i, ?_⟩
  rw [locked] at hi
  rw [isDirty, hi, beq_self_eq_true]
  rfl

/-- **A slot is offered as long as one is not locked.** -/
theorem exists_select? (h : a.lockedSlots.card < n) : ∃ i, a.select? = some i := by
  rw [← Option.isSome_iff_exists, select?]
  cases (List.finRange n).find? fun i => (a.slot i).guest.isNone && !(a.slot i).locked with
  | some i => rfl
  | none =>
    obtain ⟨i, hi⟩ := exists_unlocked h
    have hsome := isSome_leastRecent? hi
    rw [Option.isSome_or]
    cases hd : a.isDirty i with
    | false => rw [hd] at hsome; rw [hsome]; rfl
    | true => rw [hd] at hsome; rw [hsome, Bool.or_true]

end SlotArena

/-! ### Pools -/

/-- The kinds of registers that an instruction is given. -/
inductive Pool where
  | scalar | float | quad | temporary
deriving DecidableEq

/-- Number of registers of each kind. -/
def Pool.size : Pool → Nat
  | .scalar => 13
  | .float => 20
  | .quad => 8
  | .temporary => ElementCache.temporaryCount

/-- One register of a kind. -/
abbrev Pool.one (p : Pool) : Pool → Nat := Pi.single p 1

/-- A demand that leaves room for one more register. -/
theorem Pool.lt_size {d : Pool → Nat} {p : Pool} (h : d + p.one ≤ Pool.size) : d p < p.size := by
  have hp : d p + Pool.one p p ≤ p.size := h p
  rwa [Pool.one, Pi.single_eq_same] at hp

/-- What an instruction that does not end a block takes at most. -/
def Pool.demand : Pool → Nat
  | .scalar => 4
  | .float => 12
  | .quad => 3
  | .temporary => 12

theorem Pool.demand_le_size : Pool.demand ≤ Pool.size := by
  intro p
  cases p <;> decide

/-- Registers of the scalar cache that may not be taken. -/
def ScalarCache.taken (c : ScalarCache) : Pool → Nat
  | .scalar => c.arena.lockedSlots.card
  | _ => 0

/-- Registers of the element cache that may not be taken. -/
def ElementCache.taken (c : ElementCache) : Pool → Nat
  | .scalar => 0
  | .float => c.floats.lockedSlots.card
  | .quad => c.quads.lockedSlots.card
  | .temporary => c.temporaries

/-- **Registers that may not be taken within the instruction.** -/
def Builder.taken (b : Builder) : Pool → Nat := b.scalars.taken + b.elements.taken

/-! ### Scalar registers -/

namespace ScalarCache

variable {c c' : ScalarCache}

theorem taken_le {i : Fin 13} (h : ∀ j, i ≠ j → c'.arena.locked j = c.arena.locked j) :
    c'.taken ≤ c.taken + Pool.one .scalar := by
  intro p
  cases p with
  | scalar => exact SlotArena.card_lockedSlots_le h
  | float | quad | temporary => exact Nat.zero_le _

theorem taken_congr (h : ∀ i, c'.arena.locked i = c.arena.locked i) : c'.taken = c.taken := by
  funext p
  cases p with
  | scalar => exact congrArg Finset.card (SlotArena.lockedSlots_congr h)
  | float | quad | temporary => rfl

/-- **Binding takes one register, if there is one.** -/
theorem exists_bind? (r : GuestReg) (h : c.taken + Pool.one .scalar ≤ Pool.size) :
    ∃ p, c.bind? r = some p ∧ p.cache.taken ≤ c.taken + Pool.one .scalar := by
  rw [bind?]
  cases c.arena.find? r with
  | some i =>
    refine ⟨_, rfl, taken_le (i := i) fun j hij => ?_⟩
    rw [reuse, SlotArena.locked_lock, if_neg hij, SlotArena.locked_touch]
  | none =>
    obtain ⟨i, hi⟩ := SlotArena.exists_select? (a := c.arena) (Pool.lt_size h)
    rw [allocate?, hi]
    refine ⟨_, rfl, taken_le (i := i) fun j hij => ?_⟩
    show ((c.arena.clear i).assign i r).locked j = _
    rw [SlotArena.locked_assign, if_neg hij, SlotArena.locked_clear]

theorem exists_bindForWrite? (r : GuestReg) (h : c.taken + Pool.one .scalar ≤ Pool.size) :
    ∃ p, c.bindForWrite? r = some p ∧ p.cache.taken ≤ c.taken + Pool.one .scalar := by
  rw [bindForWrite?]
  cases c.arena.find? r with
  | some i =>
    refine ⟨_, rfl, taken_le (i := i) fun j hij => ?_⟩
    rw [reuse, SlotArena.locked_setDirty, SlotArena.locked_lock, if_neg hij, SlotArena.locked_touch]
  | none =>
    obtain ⟨i, hi⟩ := SlotArena.exists_select? (a := c.arena) (Pool.lt_size h)
    rw [allocate?, hi]
    refine ⟨_, rfl, taken_le (i := i) fun j hij => ?_⟩
    show (((c.arena.clear i).assign i r).setDirty i true).locked j = _
    rw [SlotArena.locked_setDirty, SlotArena.locked_assign, if_neg hij, SlotArena.locked_clear]

theorem taken_markDirty (c : ScalarCache) (r : GuestReg) : (c.markDirty r).taken = c.taken := by
  rw [markDirty]
  split
  · rfl
  · cases c.arena.find? r with
    | none => rfl
    | some i => exact taken_congr fun j => c.arena.locked_setDirty i j true

end ScalarCache

/-! ### Elements and quads -/

namespace ElementCache

variable {c c' : ElementCache}

theorem taken_congr (hfloats : ∀ i, c'.floats.locked i = c.floats.locked i)
    (hquads : ∀ i, c'.quads.locked i = c.quads.locked i) (ht : c'.temporaries = c.temporaries) :
    c'.taken = c.taken := by
  funext p
  cases p with
  | scalar => rfl
  | float => exact congrArg Finset.card (SlotArena.lockedSlots_congr hfloats)
  | quad => exact congrArg Finset.card (SlotArena.lockedSlots_congr hquads)
  | temporary => exact ht

theorem taken_le_float {i : Fin 20} (h : ∀ j, i ≠ j → c'.floats.locked j = c.floats.locked j)
    (hquads : ∀ i, c'.quads.locked i = c.quads.locked i) (ht : c'.temporaries = c.temporaries) :
    c'.taken ≤ c.taken + Pool.one .float := by
  intro p
  cases p with
  | scalar => exact Nat.zero_le _
  | float => exact SlotArena.card_lockedSlots_le h
  | quad => exact Nat.le_of_eq (congrArg Finset.card (SlotArena.lockedSlots_congr hquads))
  | temporary => exact Nat.le_of_eq ht

theorem taken_le_quad {i : Fin 8} (h : ∀ j, i ≠ j → c'.quads.locked j = c.quads.locked j)
    (hfloats : ∀ i, c'.floats.locked i = c.floats.locked i) (ht : c'.temporaries = c.temporaries) :
    c'.taken ≤ c.taken + Pool.one .quad := by
  intro p
  cases p with
  | scalar => exact Nat.zero_le _
  | float => exact Nat.le_of_eq (congrArg Finset.card (SlotArena.lockedSlots_congr hfloats))
  | quad => exact SlotArena.card_lockedSlots_le h
  | temporary => exact Nat.le_of_eq ht

/-- An eviction unlocks nothing. -/
theorem taken_evictFloat (c : ElementCache) (i : Fin 20) : (c.evictFloat i).2.taken = c.taken := by
  refine taken_congr (fun j => ?_) (fun j => ?_) (c.temporaries_evictFloat i)
  · rw [floats_evictFloat, SlotArena.locked_clear]
  · rw [quads_evictFloat]

theorem taken_evictQuad (c : ElementCache) (i : Fin 8) : (c.evictQuad i).2.taken = c.taken := by
  refine taken_congr (fun j => ?_) (fun j => ?_) (c.temporaries_evictQuad i)
  · rw [floats_evictQuad]
  · rw [quads_evictQuad, SlotArena.locked_clear]

theorem taken_release (c : ElementCache) (e : Element) : (c.release e).2.taken = c.taken := by
  rw [release]
  cases c.place e with
  | memory => rfl
  | float i => exact c.taken_evictFloat i
  | quad i lane => exact c.taken_evictQuad i

theorem taken_releaseAll (c : ElementCache) (es : List Element) :
    (c.releaseAll es).2.taken = c.taken := by
  induction es generalizing c with
  | nil => rfl
  | cons e rest ih => exact (ih (c.release e).2).trans (c.taken_release e)

theorem taken_leaveQuad (c : ElementCache) (e : Element) : (c.leaveQuad e).2.taken = c.taken := by
  rw [leaveQuad]
  cases c.place e with
  | memory | float => rfl
  | quad i lane => exact c.taken_evictQuad i

theorem exists_placeFloat? (e : Element) (load : Bool)
    (h : c.taken + Pool.one .float ≤ Pool.size) :
    ∃ p, c.placeFloat? e load = some p ∧ p.cache.taken ≤ c.taken + Pool.one .float := by
  rw [placeFloat?]
  cases c.floats.find? e with
  | some i =>
    refine ⟨_, rfl, taken_le_float (i := i) (fun j hij => ?_) (fun _ => rfl) rfl⟩
    rw [SlotArena.locked_lock, if_neg hij, SlotArena.locked_touch]
  | none =>
    obtain ⟨i, hi⟩ := SlotArena.exists_select? (a := c.floats) (Pool.lt_size h)
    rw [allocateFloat?, hi]
    refine ⟨_, rfl, taken_le_float (i := i) (fun j hij => ?_) (fun j => ?_) ?_⟩
    · show ((c.evictFloat i).2.floats.assign i e).locked j = _
      rw [SlotArena.locked_assign, if_neg hij, floats_evictFloat, SlotArena.locked_clear]
    · exact congrArg (fun a => a.locked j) (c.quads_evictFloat i)
    · exact c.temporaries_evictFloat i

/-- **Binding an element takes one float register, if there is one.** -/
theorem exists_bindElement? (e : Element) (load : Bool)
    (h : c.taken + Pool.one .float ≤ Pool.size) :
    ∃ p, c.bindElement? e load = some p ∧ p.cache.taken ≤ c.taken + Pool.one .float := by
  rw [← c.taken_leaveQuad e] at h ⊢
  obtain ⟨p, hp, htaken⟩ := exists_placeFloat? e load h
  rw [bindElement?_eq, hp]
  refine ⟨_, rfl, (Eq.le ?_).trans htaken⟩
  refine taken_congr (fun j => ?_) (fun _ => rfl) rfl
  cases load with
  | true => rfl
  | false => exact p.cache.floats.locked_setDirty p.reg j true

theorem exists_allocateQuad? (reg : Fin 128) (load : Bool)
    (h : c.taken + Pool.one .quad ≤ Pool.size) :
    ∃ p, c.allocateQuad? reg load = some p ∧ p.cache.taken ≤ c.taken + Pool.one .quad := by
  have htaken := c.taken_releaseAll (quadElements reg)
  rw [allocateQuad?]
  generalize c.releaseAll (quadElements reg) = q at htaken ⊢
  obtain ⟨released, d⟩ := q
  dsimp only at htaken ⊢
  rw [← htaken] at h ⊢
  obtain ⟨i, hi⟩ := d.quads.exists_select? (Pool.lt_size h)
  rw [hi, Option.map_some]
  have hplaced : ((d.evictQuad i).2.withQuad i reg load).taken ≤ d.taken + Pool.one .quad := by
    refine taken_le_quad (i := i) (fun j hij => ?_) (fun j => ?_) ?_
    · rw [quads_withQuad, SlotArena.locked_setDirty, SlotArena.locked_assign, if_neg hij,
        quads_evictQuad, SlotArena.locked_clear]
    · rw [floats_withQuad, floats_evictQuad]
    · rw [temporaries_withQuad, temporaries_evictQuad]
  exact ⟨_, rfl, hplaced⟩

/-- **Binding a vector register takes one quad register, if there is one.** -/
theorem exists_bindQuad? (reg : Fin 128) (load : Bool)
    (h : c.taken + Pool.one .quad ≤ Pool.size) :
    ∃ p, c.bindQuad? reg load = some p ∧ p.cache.taken ≤ c.taken + Pool.one .quad := by
  rw [bindQuad?]
  cases c.quads.find? reg with
  | none => exact exists_allocateQuad? reg load h
  | some i =>
    refine ⟨_, rfl, taken_le_quad (i := i) (fun j hij => ?_) (fun _ => rfl) rfl⟩
    have hlocked : ((c.quads.touch i).lock i).locked j = c.quads.locked j := by
      rw [SlotArena.locked_lock, if_neg hij, SlotArena.locked_touch]
    cases load with
    | true => exact hlocked
    | false => exact (SlotArena.locked_setDirty _ i j true).trans hlocked

theorem exists_temporary? (h : c.taken + Pool.one .temporary ≤ Pool.size) :
    ∃ p, c.temporary? = some p ∧ p.cache.taken ≤ c.taken + Pool.one .temporary := by
  have hlt : c.temporaries < temporaryCount := Pool.lt_size h
  rw [temporary?, if_pos hlt]
  refine ⟨_, rfl, fun p => ?_⟩
  cases p with
  | scalar | float | quad => exact Nat.le_add_right _ _
  | temporary => exact Nat.le_refl _

end ElementCache

/-- **Nothing is taken** if no slot is locked and no temporary is in use. -/
theorem Builder.taken_eq_zero {b : Builder} (hscalars : ∀ i, b.scalars.arena.locked i = false)
    (hfloats : ∀ i, b.elements.floats.locked i = false)
    (hquads : ∀ i, b.elements.quads.locked i = false) (ht : b.elements.temporaries = 0) :
    b.taken = 0 := by
  funext p
  cases p with
  | scalar =>
    show b.scalars.arena.lockedSlots.card + 0 = 0
    rw [SlotArena.card_lockedSlots_eq_zero hscalars]
  | float =>
    show 0 + b.elements.floats.lockedSlots.card = 0
    rw [SlotArena.card_lockedSlots_eq_zero hfloats]
  | quad =>
    show 0 + b.elements.quads.lockedSlots.card = 0
    rw [SlotArena.card_lockedSlots_eq_zero hquads]
  | temporary =>
    show 0 + b.elements.temporaries = 0
    rw [ht]

/-- When the lowering of a block begins, nothing is taken. -/
theorem Builder.taken_start (code : CodeSpace) (s : Setting) : (Builder.start code s).taken = 0 :=
  taken_eq_zero SlotArena.locked_empty SlotArena.locked_empty SlotArena.locked_empty rfl

/-- Nor behind an instruction, once its registers are given back. -/
theorem Builder.taken_releaseLocks (b : Builder) :
    Builder.taken { b with
      scalars := b.scalars.releaseLocks, elements := b.elements.releaseLocks } = 0 :=
  taken_eq_zero (SlotArena.locked_releaseLocks _) (SlotArena.locked_releaseLocks _)
    (SlotArena.locked_releaseLocks _) rfl

/-- **Some register of a kind may be taken**: a slot that is not locked, or a temporary. -/
def Builder.HasFree (b : Builder) : Pool → Prop
  | .scalar => ∃ i, b.scalars.arena.locked i = false
  | .float => ∃ i, b.elements.floats.locked i = false
  | .quad => ∃ i, b.elements.quads.locked i = false
  | .temporary => b.elements.temporaries < ElementCache.temporaryCount

theorem Builder.hasFree_of_taken {b : Builder} {p : Pool} (h : b.taken + p.one ≤ Pool.size) :
    b.HasFree p := by
  have hlt : b.scalars.taken p + b.elements.taken p < p.size := Pool.lt_size h
  cases p with
  | scalar => exact SlotArena.exists_unlocked ((Nat.le_add_right _ _).trans_lt hlt)
  | float | quad => exact SlotArena.exists_unlocked ((Nat.le_add_left _ _).trans_lt hlt)
  | temporary => exact (Nat.le_add_left _ _).trans_lt hlt

/-- The kind of register that is asked for. -/
def Wanted.pool : Wanted → Pool
  | .scalar _ => .scalar
  | .element _ => .float
  | .quad _ => .quad
  | .floatTemporary => .temporary

namespace Lowering

variable {α β : Type} {s : Setting} {b : Builder} {d d' : Pool → Nat}

/-! ### Steps that find their registers -/

/-- The steps that ask for a register, and what for. -/
inductive Requests : {α : Type} → Lowering α → Wanted → Prop
  | bind (r : GuestReg) : Requests (Lowering.bind r) (.scalar r)
  | bindForWrite (r : GuestReg) : Requests (Lowering.bindForWrite r) (.scalar r)
  | readElement (e : Element) : Requests (Lowering.readElement e) (.element e)
  | writeElement (e : Element) : Requests (Lowering.writeElement e) (.element e)
  | readQuad (reg : UInt8) : Requests (Lowering.readQuad reg) (.quad (quadIndex reg))
  | writeQuad (reg : UInt8) : Requests (Lowering.writeQuad reg) (.quad (quadIndex reg))
  | temporary : Requests Lowering.temporary .floatTemporary

/-- A step that needs no register, whatever is locked. -/
def Idle (s : Setting) (act : Lowering α) : Prop :=
  ∀ b, (∀ wanted, act s b ≠ .error (.registersExhausted wanted)) ∧
    ∀ x b', act s b = .ok (x, b') → b'.taken ≤ b.taken

/-- **A lowering that finds every register it asks for.**  It is made of steps that need none and of
requests; each request finds a slot that is not locked, or a temporary, and is answered. -/
inductive Supplied (s : Setting) : {α : Type} → Lowering α → Builder → Prop
  | idle {α : Type} {act : Lowering α} {b : Builder} (hact : Idle s act) : Supplied s act b
  | request {α : Type} {act : Lowering α} {wanted : Wanted} {b : Builder}
      (hact : Requests act wanted) (hfree : b.HasFree wanted.pool)
      (hok : ∃ x b', act s b = .ok (x, b')) : Supplied s act b
  | bind {α β : Type} {act : Lowering α} {f : α → Lowering β} {b : Builder}
      (hact : Supplied s act b)
      (hf : ∀ x b', act s b = .ok (x, b') → Supplied s (f x) b') : Supplied s (act >>= f) b

/-- **Such a lowering does not fail for want of a register.** -/
theorem Supplied.ne_exhausted {act : Lowering α} (h : Supplied s act b) (wanted : Wanted) :
    act s b ≠ .error (.registersExhausted wanted) := by
  induction h with
  | idle hact => exact (hact _).1 wanted
  | request _ _ hok =>
    obtain ⟨x, b', hok⟩ := hok
    rw [hok]
    exact nofun
  | @bind _ _ act f b _ _ ihact ihf =>
    have hrun : (act >>= f) s b = (act s b >>= fun p => f p.1 s p.2) := rfl
    rw [hrun]
    cases hstep : act s b with
    | error e => exact fun h => ihact (hstep.trans (congrArg Except.error (Except.error.inj h)))
    | ok p => exact ihf p.1 p.2 hstep

/-! ### The demand of a step -/

/-- **A step that succeeds if the registers `d` are left**, finds each of them, and takes no others. -/
def Takes (s : Setting) (act : Lowering α) (d : Pool → Nat) : Prop :=
  ∀ b : Builder, b.taken + d ≤ Pool.size →
    Supplied s act b ∧ ∃ x b', act s b = .ok (x, b') ∧ b'.taken ≤ b.taken + d

theorem Takes.mono {act : Lowering α} (h : Takes s act d) (hle : d ≤ d') : Takes s act d' := by
  intro b hb
  obtain ⟨hsupplied, x, b', hok, htaken⟩ := h b (le_trans (add_le_add_right hle _) hb)
  exact ⟨hsupplied, x, b', hok, htaken.trans (add_le_add_right hle _)⟩

/-- **A step that always succeeds and locks nothing** takes nothing. -/
theorem takes_zero {act : Lowering α}
    (h : ∀ b, ∃ x b', act s b = .ok (x, b') ∧ b'.taken ≤ b.taken) : Takes s act 0 := by
  intro b _
  refine ⟨.idle fun b => ?_, ?_⟩
  · obtain ⟨x, b', hok, htaken⟩ := h b
    rw [hok]
    exact ⟨nofun, fun _ _ heq => by cases heq; exact htaken⟩
  · rw [add_zero]
    exact h b

theorem takes_pure (x : α) : Takes s (pure x : Lowering α) 0 :=
  takes_zero fun b => ⟨x, b, rfl, le_rfl⟩

/-- **Demands of steps add up.** -/
theorem takes_bind {act : Lowering α} {f : α → Lowering β} (hact : Takes s act d)
    (hf : ∀ x, Takes s (f x) d') : Takes s (act >>= f) (d + d') := by
  intro b hb
  rw [← add_assoc] at hb ⊢
  obtain ⟨hsupplied, x, b', hok, htaken⟩ :=
    hact b (le_trans (le_add_of_nonneg_right zero_le) hb)
  obtain ⟨hsupplied', y, b'', hok', htaken'⟩ := hf x b' ((add_le_add_left htaken d').trans hb)
  refine ⟨.bind hsupplied fun _ _ heq => ?_, y, b'', ?_, htaken'.trans (add_le_add_left htaken d')⟩
  · rw [hok] at heq
    cases heq
    exact hsupplied'
  · show (act s b >>= fun p => f p.1 s p.2) = _
    rw [hok]
    exact hok'

/-- A step that takes nothing, and one after it. -/
theorem takes_bind_zero {act : Lowering α} {f : α → Lowering β} (hact : Takes s act 0)
    (hf : ∀ x, Takes s (f x) d) : Takes s (act >>= f) d := by
  rw [← zero_add d]
  exact takes_bind hact hf

/-- A step in front of one that takes nothing. -/
theorem takes_bind_last {act : Lowering α} {f : α → Lowering β} (hact : Takes s act d)
    (hf : ∀ x, Takes s (f x) 0) : Takes s (act >>= f) d := by
  rw [← add_zero d]
  exact takes_bind hact hf

/-- What follows a look at the builder. -/
theorem takes_get {f : Builder → Lowering α} (hf : ∀ b, Takes s (f b) d) :
    Takes s ((get : Lowering Builder) >>= f) d :=
  takes_bind_zero (takes_zero fun b => ⟨b, b, rfl, le_rfl⟩) hf

/-- What follows a look at the setting. -/
theorem takes_read {f : Setting → Lowering α} (hf : ∀ s', Takes s (f s') d) :
    Takes s ((read : Lowering Setting) >>= f) d :=
  takes_bind_zero (takes_zero fun b => ⟨s, b, rfl, le_rfl⟩) hf

theorem takes_ite {c : Prop} [Decidable c] {x y : Lowering α} (hx : Takes s x d)
    (hy : Takes s y d) : Takes s (if c then x else y) d := by
  split
  · exact hx
  · exact hy

/-- A step that only emits code or changes what is known. -/
theorem takes_modify {f : Builder → Builder} (h : ∀ b, (f b).taken ≤ b.taken) :
    Takes s (modify f : Lowering Unit) 0 :=
  takes_zero fun b => ⟨(), f b, rfl, h b⟩

theorem takes_emit (op : Operation) : Takes s (emit op) 0 := takes_modify fun _ => le_rfl

theorem takes_updateModifiers (f : ModifierTracker → ModifierTracker) :
    Takes s (updateModifiers f) 0 := takes_modify fun _ => le_rfl

theorem takes_markDirty (r : GuestReg) : Takes s (markDirty r) 0 := by
  refine takes_modify fun b => le_of_eq ?_
  rw [Builder.taken, ScalarCache.taken_markDirty]
  rfl

theorem takes_move (rd rs : HostReg) : Takes s (move rd rs) 0 := by
  unfold move
  split
  · exact takes_pure _
  · exact takes_emit _

theorem takes_moveFloat (fd fs : FloatReg) : Takes s (moveFloat fd fs) 0 := by
  unfold moveFloat
  split
  · exact takes_pure _
  · exact takes_emit _

/-- What a scalar action takes. -/
theorem takes_useScalars {wanted : GuestReg}
    {action : ScalarCache → Option (Placed HostReg ScalarCache)}
    (hrequest : Requests (useScalars wanted action) (.scalar wanted))
    (haction : ∀ c : ScalarCache, c.taken + Pool.one .scalar ≤ Pool.size →
      ∃ p, action c = some p ∧ p.cache.taken ≤ c.taken + Pool.one .scalar) :
    Takes s (useScalars wanted action) (Pool.one .scalar) := by
  intro b hb
  have hfit : b.scalars.taken + Pool.one .scalar ≤ Pool.size :=
    (add_le_add_left (le_add_of_nonneg_right zero_le) _).trans hb
  obtain ⟨p, hp, htaken⟩ := haction b.scalars hfit
  have hok := (useScalars_eq (s := s) (b := b) wanted action).trans (by rw [hp])
  refine ⟨.request hrequest (Builder.hasFree_of_taken hb) ⟨_, _, hok⟩, _, _, hok, ?_⟩
  rw [Builder.taken, Builder.taken, add_right_comm]
  exact add_le_add_left htaken _

theorem takes_bindReg (r : GuestReg) : Takes s (Lowering.bind r) (Pool.one .scalar) :=
  takes_useScalars (.bind r) fun _ => ScalarCache.exists_bind? r

theorem takes_bindForWrite (r : GuestReg) : Takes s (bindForWrite r) (Pool.one .scalar) :=
  takes_useScalars (.bindForWrite r) fun _ => ScalarCache.exists_bindForWrite? r

/-- What an action on elements takes. -/
theorem takes_useElements {R : Type} {wanted : Wanted}
    {action : ElementCache → Option (Placed R ElementCache)}
    (hrequest : Requests (useElements wanted action) wanted)
    (haction : ∀ c : ElementCache, c.taken + wanted.pool.one ≤ Pool.size →
      ∃ p, action c = some p ∧ p.cache.taken ≤ c.taken + wanted.pool.one) :
    Takes s (useElements wanted action) wanted.pool.one := by
  intro b hb
  have hfit : b.elements.taken + wanted.pool.one ≤ Pool.size :=
    (add_le_add_left (le_add_of_nonneg_left zero_le) _).trans hb
  obtain ⟨p, hp, htaken⟩ := haction b.elements hfit
  have hok := (useElements_eq (s := s) (b := b) wanted action).trans (by rw [hp])
  refine ⟨.request hrequest (Builder.hasFree_of_taken hb) ⟨_, _, hok⟩, _, _, hok, ?_⟩
  rw [Builder.taken, Builder.taken, add_assoc]
  exact add_le_add_right htaken _

theorem takes_readElement (e : Element) : Takes s (readElement e) (Pool.one .float) :=
  takes_useElements (.readElement e) fun _ => ElementCache.exists_bindElement? e true

theorem takes_writeElement (e : Element) : Takes s (writeElement e) (Pool.one .float) :=
  takes_useElements (.writeElement e) fun _ => ElementCache.exists_bindElement? e false

theorem takes_readQuad (reg : UInt8) : Takes s (readQuad reg) (Pool.one .quad) :=
  takes_useElements (.readQuad reg) fun _ => ElementCache.exists_bindQuad? (quadIndex reg) true

theorem takes_writeQuad (reg : UInt8) : Takes s (writeQuad reg) (Pool.one .quad) :=
  takes_useElements (.writeQuad reg) fun _ => ElementCache.exists_bindQuad? (quadIndex reg) false

theorem takes_temporary : Takes s temporary (Pool.one .temporary) :=
  takes_useElements .temporary fun _ => ElementCache.exists_temporary?

/-- **A step for each item of a list.** -/
theorem takes_mapM {f : α → Lowering β} (hf : ∀ x, Takes s (f x) d) (l : List α) :
    Takes s (l.mapM f) (l.length • d) := by
  induction l with
  | nil =>
    rw [List.mapM_nil, List.length_nil, zero_nsmul]
    exact takes_pure _
  | cons x rest ih =>
    rw [List.mapM_cons, List.length_cons, succ_nsmul']
    exact takes_bind (hf x) fun _ => takes_bind_last ih fun _ => takes_pure _

theorem takes_forM {f : α → Lowering Unit} (hf : ∀ x, Takes s (f x) d) (l : List α) :
    Takes s (l.forM f) (l.length • d) := by
  induction l with
  | nil =>
    rw [List.length_nil, zero_nsmul]
    exact takes_pure _
  | cons x rest ih =>
    rw [List.length_cons, succ_nsmul']
    exact takes_bind (hf x) fun _ => ih

end Lowering

end Dynarec
