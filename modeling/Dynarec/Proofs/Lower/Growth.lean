import Dynarec.Proofs.Host.Encoding
import Dynarec.Proofs.Lower.Straight

/-!
# How the lowering of a block grows

`Builder.Extends b b'` says that `b'` goes on from `b`: operations were appended, every reference to
a label is the word of a forward jump, and every exit is the word of an exit.  Each step of a
lowering goes on from where it started (`growing_instructions`), unless a word did not fit.
-/

namespace Dynarec

/-- The operation leaves the block, or may; exits that can be linked apart. -/
def Operation.Leaves : Operation → Prop
  | .exitSyscall code _ => code.toNat < 2 ^ 24
  | .exitDispatchReg _ | .exitInterpret _ | .exitBreak _ | .guardModifiers _ => True
  | _ => False

theorem Operation.Inline.fits {op : Operation} (hop : op.Inline) : op.Fits := by
  cases op <;> trivial

theorem Operation.Leaves.fits {op : Operation} (hop : op.Leaves) : op.Fits := by
  cases op <;> trivial

namespace CodeSpace

variable {c : CodeSpace}

theorem emit_of_fits {w : HostWord} (hfits : (c.emit w).overflowed = false) :
    c.overflowed = false ∧ c.emit w = { c with words := c.words.push w } := by
  rw [emit] at hfits ⊢
  by_cases hlt : c.offset < c.capacity
  · rw [if_pos hlt] at hfits ⊢
    exact ⟨hfits, rfl⟩
  · rw [if_neg hlt] at hfits
    cases hfits

/-- What was emitted when every word fitted. -/
theorem emitOps_of_fits {ops : List Operation} (hfits : (c.emitOps ops).overflowed = false) :
    c.overflowed = false ∧ (c.emitOps ops).words.toList = c.words.toList ++ ops.map Operation.encode ∧
      (c.emitOps ops).references = c.references ∧ (c.emitOps ops).labels = c.labels := by
  induction ops generalizing c with
  | nil =>
    refine ⟨hfits, ?_, rfl, rfl⟩
    rw [List.map_nil, List.append_nil]
    rfl
  | cons op rest ih =>
    have hrest : ((c.emit op.encode).emitOps rest).overflowed = false := hfits
    obtain ⟨hone, hwords, hrefs, hlabels⟩ := ih hrest
    obtain ⟨hov, hemit⟩ := emit_of_fits hone
    have heq : c.emitOps (op :: rest) = (c.emit op.encode).emitOps rest := rfl
    refine ⟨hov, ?_, ?_, ?_⟩
    · rw [heq, hwords, hemit, Array.toList_push, List.append_assoc]
      rfl
    · rw [heq, hrefs, hemit]
    · rw [heq, hlabels, hemit]

theorem capacity_emit (c : CodeSpace) (w : HostWord) : (c.emit w).capacity = c.capacity := by
  rw [emit]
  split <;> rfl

theorem capacity_emitOps (c : CodeSpace) (ops : List Operation) :
    (c.emitOps ops).capacity = c.capacity := by
  induction ops generalizing c with
  | nil => rfl
  | cons op rest ih => exact (ih (c.emit op.encode)).trans (capacity_emit c _)

theorem length_words (c : CodeSpace) : c.words.toList.length = c.offset := Array.length_toList

end CodeSpace

namespace Builder

/-- **What was appended**: operations, references among them, and exits among them. -/
structure Adds (b b' : Builder) (ops : List Operation) (refs : List (Nat × Label))
    (exits : List Exit) : Prop where
  fits : b.code.overflowed = false
  words : b'.code.words.toList = b.code.words.toList ++ ops.map Operation.encode
  allReferences : b'.code.references = b.code.references ++ refs
  allExits : b'.exits.toList = b.exits.toList ++ exits
  kind : ∀ k op, ops[k]? = some op → op.Inline ∨ op.Leaves ∨
    (∃ e ∈ exits, e.stub = b.code.offset + k ∧ op = .exitDispatch e.target) ∨
    ∃ c l, op = .jumpIf c 0 ∧ (b.code.offset + k, l) ∈ refs
  refAt : ∀ p l, (p, l) ∈ refs → ∃ k c, p = b.code.offset + k ∧ ops[k]? = some (.jumpIf c 0)
  stubAt : ∀ e ∈ exits, ∃ k, e.stub = b.code.offset + k ∧ ops[k]? = some (.exitDispatch e.target)
  refsApart : (refs.map Prod.fst).Nodup
  stubsApart : (exits.map Exit.stub).Nodup
  labels : ∀ l q, b.code.labelOffset? l = some q → b'.code.labelOffset? l = some q
  bound : ∀ l q, b'.code.labelOffset? l = some q →
    b.code.labelOffset? l = some q ∨ b.code.offset ≤ q ∧ q ≤ b'.code.offset
  capacity : b'.code.capacity = b.code.capacity

/-- **The lowering went on**, if every word fitted. -/
def Extends (b b' : Builder) : Prop :=
  b'.code.overflowed = false → ∃ ops refs exits, b.Adds b' ops refs exits

namespace Adds

variable {b b' b'' : Builder} {xs ys : List Operation} {rs rs' : List (Nat × Label)}
  {es es' : List Exit}

theorem offset (x : Adds b b' xs rs es) : b'.code.offset = b.code.offset + xs.length := by
  rw [← CodeSpace.length_words, ← CodeSpace.length_words, x.words, List.length_append,
    List.length_map]

theorem lt_offset {k : Nat} {op : Operation} (x : Adds b b' xs rs es) (hk : xs[k]? = some op) :
    b.code.offset + k < b'.code.offset := by
  have hlt := (List.getElem?_eq_some_iff.mp hk).1
  rw [x.offset]
  omega

theorem refs_lt (x : Adds b b' xs rs es) {p : Nat} {l : Label} (hp : (p, l) ∈ rs) :
    b.code.offset ≤ p ∧ p < b'.code.offset := by
  obtain ⟨k, c, rfl, hk⟩ := x.refAt p l hp
  exact ⟨Nat.le_add_right _ _, x.lt_offset hk⟩

theorem stub_lt (x : Adds b b' xs rs es) {e : Exit} (he : e ∈ es) :
    b.code.offset ≤ e.stub ∧ e.stub < b'.code.offset := by
  obtain ⟨k, heq, hk⟩ := x.stubAt e he
  rw [heq]
  exact ⟨Nat.le_add_right _ _, x.lt_offset hk⟩

/-- Straight code is appended. -/
theorem of_emits (hemits : b.Emits b' xs) (hfits : b'.code.overflowed = false) :
    Adds b b' xs [] [] := by
  rw [hemits.code] at hfits
  obtain ⟨hov, hwords, hrefs, hlabels⟩ := CodeSpace.emitOps_of_fits hfits
  have hoffset : ∀ l, b'.code.labelOffset? l = b.code.labelOffset? l := fun l => by
    rw [CodeSpace.labelOffset?, CodeSpace.labelOffset?, hemits.code, hlabels]
  refine ⟨hov, ?_, ?_, ?_, fun k op hk => .inl ?_, nofun, nofun, .nil, .nil, fun l q hq => ?_,
    fun l q hq => .inl ?_, ?_⟩
  · rw [hemits.code]
    exact hwords
  · rw [hemits.code, hrefs, List.append_nil]
  · rw [hemits.exits, List.append_nil]
  · exact hemits.inline op (List.mem_of_getElem? hk)
  · rw [hoffset, hq]
  · rw [← hoffset, hq]
  · rw [hemits.code, CodeSpace.capacity_emitOps]

theorem trans (x : Adds b b' xs rs es) (y : Adds b' b'' ys rs' es') :
    Adds b b'' (xs ++ ys) (rs ++ rs') (es ++ es') where
  fits := x.fits
  words := by rw [y.words, x.words, List.append_assoc, List.map_append]
  allReferences := by rw [y.allReferences, x.allReferences, List.append_assoc]
  allExits := by rw [y.allExits, x.allExits, List.append_assoc]
  kind k op hk := by
    by_cases hlt : k < xs.length
    · rw [List.getElem?_append_left hlt] at hk
      rcases x.kind k op hk with hi | hl | ⟨e, he, hs, heq⟩ | ⟨c, l, heq, hr⟩
      · exact .inl hi
      · exact .inr (.inl hl)
      · exact .inr (.inr (.inl ⟨e, List.mem_append_left _ he, hs, heq⟩))
      · exact .inr (.inr (.inr ⟨c, l, heq, List.mem_append_left _ hr⟩))
    · have hle := Nat.le_of_not_lt hlt
      rw [List.getElem?_append_right hle] at hk
      have hpos : b'.code.offset + (k - xs.length) = b.code.offset + k := by
        rw [x.offset]
        omega
      rcases y.kind _ op hk with hi | hl | ⟨e, he, hs, heq⟩ | ⟨c, l, heq, hr⟩
      · exact .inl hi
      · exact .inr (.inl hl)
      · exact .inr (.inr (.inl ⟨e, List.mem_append_right _ he, hs.trans hpos, heq⟩))
      · rw [hpos] at hr
        exact .inr (.inr (.inr ⟨c, l, heq, List.mem_append_right _ hr⟩))
  refAt p l hp := by
    rcases List.mem_append.mp hp with hp | hp
    · obtain ⟨k, c, heq, hk⟩ := x.refAt p l hp
      refine ⟨k, c, heq, ?_⟩
      rw [List.getElem?_append_left (List.getElem?_eq_some_iff.mp hk).1, hk]
    · obtain ⟨k, c, heq, hk⟩ := y.refAt p l hp
      refine ⟨xs.length + k, c, ?_, ?_⟩
      · rw [heq, x.offset, Nat.add_assoc]
      · rw [List.getElem?_append_right (Nat.le_add_right _ _), Nat.add_sub_cancel_left, hk]
  stubAt e he := by
    rcases List.mem_append.mp he with he | he
    · obtain ⟨k, heq, hk⟩ := x.stubAt e he
      refine ⟨k, heq, ?_⟩
      rw [List.getElem?_append_left (List.getElem?_eq_some_iff.mp hk).1, hk]
    · obtain ⟨k, heq, hk⟩ := y.stubAt e he
      refine ⟨xs.length + k, ?_, ?_⟩
      · rw [heq, x.offset, Nat.add_assoc]
      · rw [List.getElem?_append_right (Nat.le_add_right _ _), Nat.add_sub_cancel_left, hk]
  refsApart := by
    rw [List.map_append, List.nodup_append]
    refine ⟨x.refsApart, y.refsApart, fun p hp p' hp' heq => ?_⟩
    obtain ⟨⟨_, l⟩, hr, rfl⟩ := List.mem_map.mp hp
    obtain ⟨⟨_, l'⟩, hr', rfl⟩ := List.mem_map.mp hp'
    have hlt := (x.refs_lt hr).2
    have hle := (y.refs_lt hr').1
    dsimp only at heq
    omega
  stubsApart := by
    rw [List.map_append, List.nodup_append]
    refine ⟨x.stubsApart, y.stubsApart, fun p hp p' hp' heq => ?_⟩
    obtain ⟨e, he, rfl⟩ := List.mem_map.mp hp
    obtain ⟨e', he', rfl⟩ := List.mem_map.mp hp'
    have hlt := (x.stub_lt he).2
    have hle := (y.stub_lt he').1
    omega
  labels l q hq := y.labels l q (x.labels l q hq)
  bound l q hq := by
    have hx := x.offset
    have hy := y.offset
    rcases y.bound l q hq with hq' | ⟨hle, hle'⟩
    · rcases x.bound l q hq' with hq'' | ⟨hle, hle'⟩
      · exact .inl hq''
      · exact .inr ⟨hle, by omega⟩
    · exact .inr ⟨by omega, hle'⟩
  capacity := y.capacity.trans x.capacity

end Adds

namespace Extends

variable {b b' b'' : Builder}

theorem of_emits {ops : List Operation} (hemits : b.Emits b' ops) : b.Extends b' :=
  fun hfits => ⟨ops, [], [], .of_emits hemits hfits⟩

theorem refl (b : Builder) : b.Extends b := .of_emits (.nothing rfl rfl)

theorem trans (x : b.Extends b') (y : b'.Extends b'') : b.Extends b'' := by
  intro hfits
  obtain ⟨ys, rs', es', hy⟩ := y hfits
  obtain ⟨xs, rs, es, hx⟩ := x hy.fits
  exact ⟨_, _, _, hx.trans hy⟩

end Extends

end Builder

namespace Lowering

variable {α β : Type} {s : Setting} {b : Builder}

/-- **A step goes on from the builder in front of it**, and counts `n` instructions. -/
def Growing (s : Setting) (act : Lowering α) (n : Nat) (b : Builder) : Prop :=
  ∀ x b', act s b = .ok (x, b') →
    b.Extends b' ∧ b'.progress.count = b.progress.count + UInt32.ofNat n

/-- A step that goes on and counts nothing. -/
theorem growing_of_extends {b' : Builder} (hext : b.Extends b')
    (hprogress : b'.progress = b.progress) :
    b.Extends b' ∧ b'.progress.count = b.progress.count + UInt32.ofNat 0 :=
  ⟨hext, by rw [hprogress]; exact (UInt32.add_zero _).symm⟩

theorem growing_of_straight {act : Lowering α} (hact : Straight s act) : Growing s act 0 b := by
  intro x b' hok
  obtain ⟨ops, hemits, hprogress⟩ := hact b x b' hok
  exact growing_of_extends (.of_emits hemits) hprogress

theorem growing_bind' {act : Lowering α} {f : α → Lowering β} {n k : Nat}
    (hact : Growing s act n b)
    (hf : ∀ x b', act s b = .ok (x, b') → Growing s (f x) k b') :
    Growing s (act >>= f) (n + k) b := by
  intro y b'' hok
  obtain ⟨x, b', hx, hy⟩ := bind_eq_ok hok
  obtain ⟨hext, hcount⟩ := hact x b' hx
  obtain ⟨hext', hcount'⟩ := hf x b' hx y b'' hy
  refine ⟨hext.trans hext', ?_⟩
  rw [hcount', hcount, UInt32.ofNat_add, UInt32.add_assoc]

theorem growing_bind {act : Lowering α} {f : α → Lowering β} {n k : Nat}
    (hact : Growing s act n b) (hf : ∀ x b', Growing s (f x) k b') :
    Growing s (act >>= f) (n + k) b :=
  growing_bind' hact fun x b' _ => hf x b'

theorem growing_zero {act : Lowering α} {f : α → Lowering β} {n : Nat} (hact : Growing s act 0 b)
    (hf : ∀ x b', Growing s (f x) n b') : Growing s (act >>= f) n b := by
  have hbind := growing_bind hact hf
  rwa [Nat.zero_add] at hbind

theorem growing_read {f : Setting → Lowering α} {n : Nat} (hf : Growing s (f s) n b) :
    Growing s (read >>= f) n b := by
  intro x b' hok
  obtain ⟨_, b₀, hread, hok⟩ := bind_eq_ok hok
  cases hread
  exact hf x b' hok

theorem growing_straight {act : Lowering α} {f : α → Lowering β} {n : Nat} (hact : Straight s act)
    (hf : ∀ x b', Growing s (f x) n b') : Growing s (act >>= f) n b :=
  growing_zero (growing_of_straight hact) hf

theorem growing_moveTo (pc : UInt32) : Growing s (moveTo pc) 0 b := by
  intro x b' hok
  cases hok
  exact ⟨.of_emits (.nothing rfl rfl), (UInt32.add_zero _).symm⟩

/-- One more instruction. -/
theorem growing_charge {f : Unit → Lowering α} {n : Nat} (hf : ∀ b, Growing s (f ()) n b) :
    Growing s (charge >>= f) (n + 1) b := by
  have hcharge : Growing s charge 1 b := fun x b' hok => by
    cases hok
    exact ⟨.of_emits (.nothing rfl rfl), rfl⟩
  have hbind := growing_bind hcharge fun _ b' => hf b'
  rwa [Nat.add_comm] at hbind

theorem adds_emit {op : Operation} (hop : op.Leaves)
    (hfits : (b.code.emit op.encode).overflowed = false) :
    b.Adds { b with code := b.code.emit op.encode } [op] [] [] := by
  obtain ⟨hov, hemit⟩ := CodeSpace.emit_of_fits hfits
  have hcode : ({ b with code := b.code.emit op.encode } : Builder).code = _ := hemit
  refine ⟨hov, ?_, ?_, ?_, fun k op' hk => .inr (.inl ?_), nofun, nofun, .nil, .nil,
    fun l q hq => ?_, fun l q hq => .inl ?_, CodeSpace.capacity_emit _ _⟩
  · rw [hcode, Array.toList_push]
    rfl
  · rw [hcode, List.append_nil]
  · rw [List.append_nil]
  · cases k with
    | zero => cases hk; exact hop
    | succ k => simp at hk
  · rw [hcode]
    exact hq
  · rw [hcode] at hq
    exact hq

/-- An operation that leaves the block. -/
theorem growing_emit {op : Operation} (hop : op.Leaves) : Growing s (emit op) 0 b := by
  intro x b' hok
  cases hok
  exact growing_of_extends (fun hfits => ⟨_, _, _, adds_emit hop hfits⟩) rfl

/-- The word of an exit that can be linked. -/
def pushExit (b : Builder) (target : UInt32) : Builder :=
  { b with
    exits := b.exits.push { target := target, stub := b.code.offset }
    code := b.code.emit (Operation.exitDispatch target).encode }

theorem adds_pushExit {target : UInt32} (hfits : (pushExit b target).code.overflowed = false) :
    b.Adds (pushExit b target) [.exitDispatch target] []
      [{ target := target, stub := b.code.offset }] := by
  obtain ⟨hov, hemit⟩ := CodeSpace.emit_of_fits hfits
  have hcode : (pushExit b target).code = _ := hemit
  refine ⟨hov, ?_, ?_, ?_, fun k op hk => ?_, nofun, fun e he => ?_, .nil, by simp,
    fun l q hq => ?_, fun l q hq => .inl ?_, CodeSpace.capacity_emit _ _⟩
  · rw [hcode, Array.toList_push]
    rfl
  · rw [hcode, List.append_nil]
  · exact Array.toList_push
  · cases k with
    | zero =>
      cases hk
      exact .inr (.inr (.inl ⟨_, List.mem_singleton.mpr rfl, rfl, rfl⟩))
    | succ k => simp at hk
  · cases List.mem_singleton.mp he
    exact ⟨0, rfl, rfl⟩
  · rw [hcode]
    exact hq
  · rw [hcode] at hq
    exact hq

theorem straight_subtractCycles (amount : UInt32) : Straight s (subtractCycles amount) := by
  unfold subtractCycles
  exact straight_bind straight_read fun _ => straight_ite (straight_emit trivial)
    (straight_emit trivial)

theorem straight_subtractProgress : Straight s subtractProgress := by
  unfold subtractProgress
  exact straight_bind straight_get fun _ => straight_subtractCycles _

theorem growing_exitTo (target amount : UInt32) : Growing s (exitTo target amount) 0 b := by
  unfold exitTo
  refine growing_straight (straight_subtractCycles amount) fun _ b' x b'' hok => ?_
  cases hok
  exact growing_of_extends (fun hfits => ⟨_, _, _, adds_pushExit hfits⟩) rfl

theorem growing_exitHere (target : UInt32) : Growing s (exitHere target) 0 b := by
  unfold exitHere
  exact growing_straight straight_get fun _ _ => growing_exitTo _ _

/-! ### Forward jumps -/

/-- The word of a forward jump. -/
def pushJump (b : Builder) (condition : Condition) (label : Label) : Builder :=
  { b with code := b.code.emitReference (Operation.jumpIf condition 0).encode label }

theorem emitReference_eq (c : CodeSpace) (w : HostWord) (label : Label) :
    c.emitReference w label =
      if (c.emit w).overflowed then c.emit w
      else { c.emit w with references := (c.emit w).references ++ [(c.offset, label)] } := rfl

theorem emitReference_of_fits {c : CodeSpace} {w : HostWord} {label : Label}
    (hfits : (c.emitReference w label).overflowed = false) :
    c.overflowed = false ∧ c.emitReference w label =
      { c with words := c.words.push w, references := c.references ++ [(c.offset, label)] } := by
  rw [emitReference_eq] at hfits ⊢
  cases hov : (c.emit w).overflowed with
  | true =>
    rw [if_pos hov, hov] at hfits
    cases hfits
  | false =>
    obtain ⟨hc, hemit⟩ := CodeSpace.emit_of_fits hov
    refine ⟨hc, ?_⟩
    rw [if_neg (by decide), hemit]

theorem adds_pushJump {condition : Condition} {label : Label}
    (hfits : (pushJump b condition label).code.overflowed = false) :
    b.Adds (pushJump b condition label) [.jumpIf condition 0] [(b.code.offset, label)] [] := by
  obtain ⟨hov, hemit⟩ := emitReference_of_fits hfits
  have hcode : (pushJump b condition label).code = _ := hemit
  refine ⟨hov, ?_, ?_, ?_, fun k op hk => ?_, fun p l hp => ?_, nofun, by simp, .nil,
    fun l q hq => ?_, fun l q hq => .inl ?_, ?_⟩
  · rw [hcode, Array.toList_push]
    rfl
  · rw [hcode]
  · rw [List.append_nil]
    rfl
  · cases k with
    | zero =>
      cases hk
      exact .inr (.inr (.inr ⟨condition, label, rfl, List.mem_singleton.mpr rfl⟩))
    | succ k => simp at hk
  · cases List.mem_singleton.mp hp
    exact ⟨0, condition, rfl, rfl⟩
  · rw [hcode]
    exact hq
  · rw [hcode] at hq
    exact hq
  · rw [hcode]

/-- A new label. -/
def withLabel (b : Builder) : Builder :=
  { b with code := { b.code with labels := b.code.labels.push none } }

theorem extends_withLabel (b : Builder) : b.Extends (withLabel b) := by
  intro hfits
  have hlabel : ∀ l, (withLabel b).code.labelOffset? l = b.code.labelOffset? l := fun l => by
    show ((b.code.labels.push none)[l]?).join = (b.code.labels[l]?).join
    rw [Array.getElem?_push]
    split
    · rename_i heq
      rw [heq, Array.getElem?_eq_none (Nat.le_refl _)]
      rfl
    · rfl
  refine ⟨[], [], [], hfits, ?_, ?_, ?_, nofun, nofun, nofun, .nil, .nil, fun l q hq => ?_,
    fun l q hq => .inl ?_, rfl⟩
  · exact (List.append_nil _).symm
  · exact (List.append_nil _).symm
  · exact (List.append_nil _).symm
  · rw [hlabel, hq]
  · rw [← hlabel, hq]

/-- The label is bound here. -/
def withPlace (b : Builder) (label : Label) : Builder := { b with code := b.code.place label }

theorem labelOffset?_withPlace {b : Builder} {label : Label} (hlt : label < b.code.labels.size)
    (l : Label) : (withPlace b label).code.labelOffset? l =
      if l = label then some b.code.offset else b.code.labelOffset? l := by
  show ((b.code.labels.setIfInBounds label (some b.code.offset))[l]?).join = _
  rw [Array.getElem?_setIfInBounds]
  by_cases heq : l = label
  · rw [if_pos heq.symm, if_pos heq, if_pos hlt]
    rfl
  · rw [if_neg (Ne.symm heq), if_neg heq]
    rfl

theorem extends_withPlace {b : Builder} {label : Label} (hlt : label < b.code.labels.size)
    (hnone : b.code.labelOffset? label = none) : b.Extends (withPlace b label) := by
  intro hfits
  refine ⟨[], [], [], hfits, ?_, ?_, ?_, nofun, nofun, nofun, .nil, .nil, fun l q hq => ?_,
    fun l q hq => ?_, rfl⟩
  · exact (List.append_nil _).symm
  · exact (List.append_nil _).symm
  · exact (List.append_nil _).symm
  · rw [labelOffset?_withPlace hlt, if_neg, hq]
    intro heq
    rw [heq, hnone] at hq
    cases hq
  · rw [labelOffset?_withPlace hlt] at hq
    by_cases heq : l = label
    · rw [if_pos heq] at hq
      cases hq
      exact .inr ⟨Nat.le_refl _, Nat.le_refl _⟩
    · rw [if_neg heq] at hq
      exact .inl hq

/-- The label is not bound yet. -/
def Open (b : Builder) (label : Label) : Prop :=
  label < b.code.labels.size ∧ b.code.labelOffset? label = none

theorem open_withLabel (b : Builder) : Open (withLabel b) b.code.labels.size := by
  refine ⟨?_, ?_⟩
  · show b.code.labels.size < (b.code.labels.push none).size
    rw [Array.size_push]
    exact Nat.lt_succ_self _
  · show ((b.code.labels.push none)[b.code.labels.size]?).join = none
    rw [Array.getElem?_push_size]
    rfl

/-- The labels are the same. -/
def SameLabels (b b' : Builder) : Prop := b'.code.labels = b.code.labels

theorem Open.congr {b b' : Builder} {label : Label} (ho : Open b label) (hs : SameLabels b b') :
    Open b' label := by
  rw [Open, CodeSpace.labelOffset?, hs]
  exact ho

theorem labels_emit (c : CodeSpace) (w : HostWord) : (c.emit w).labels = c.labels := by
  rw [CodeSpace.emit]
  split <;> rfl

theorem labels_emitOps (c : CodeSpace) (ops : List Operation) :
    (c.emitOps ops).labels = c.labels := by
  induction ops generalizing c with
  | nil => rfl
  | cons op rest ih => exact (ih (c.emit op.encode)).trans (labels_emit c _)

theorem sameLabels_of_straight {act : Lowering α} (hact : Straight s act) {x : α} {b' : Builder}
    (hok : act s b = .ok (x, b')) : SameLabels b b' := by
  obtain ⟨ops, hemits, -⟩ := hact b x b' hok
  rw [SameLabels, hemits.code, labels_emitOps]

theorem sameLabels_exitTo {target amount : UInt32} {x : Unit} {b' : Builder}
    (hok : exitTo target amount s b = .ok (x, b')) : SameLabels b b' := by
  obtain ⟨_, b₁, hsub, hpush⟩ := bind_eq_ok hok
  cases hpush
  exact (labels_emit _ _).trans (sameLabels_of_straight (straight_subtractCycles amount) hsub)

theorem sameLabels_pushJump (b : Builder) (condition : Condition) (label : Label) :
    SameLabels b (pushJump b condition label) := by
  show (b.code.emitReference _ label).labels = _
  rw [emitReference_eq]
  split
  · exact labels_emit _ _
  · exact labels_emit _ _

theorem growing_newLabel {f : Label → Lowering α} {n : Nat}
    (hf : Growing s (f b.code.labels.size) n (withLabel b)) : Growing s (newLabel >>= f) n b := by
  have hact : Growing s newLabel 0 b := fun x b' hok => by
    cases hok
    exact growing_of_extends (extends_withLabel b) rfl
  have hbind := growing_bind' hact (k := n) fun x b' hok => by
    cases hok
    exact hf
  rwa [Nat.zero_add] at hbind

theorem growing_jumpForward {condition : Condition} {label : Label} {f : Unit → Lowering α}
    {n : Nat} (hf : Growing s (f ()) n (pushJump b condition label)) :
    Growing s (jumpForward condition label >>= f) n b := by
  have hact : Growing s (jumpForward condition label) 0 b := fun x b' hok => by
    cases hok
    exact growing_of_extends (fun hfits => ⟨_, _, _, adds_pushJump hfits⟩) rfl
  have hbind := growing_bind' hact (k := n) fun x b' hok => by
    cases hok
    exact hf
  rwa [Nat.zero_add] at hbind

theorem growing_placeLabel {label : Label} {f : Unit → Lowering α} {n : Nat} (ho : Open b label)
    (hf : Growing s (f ()) n (withPlace b label)) : Growing s (placeLabel label >>= f) n b := by
  have hact : Growing s (placeLabel label) 0 b := fun x b' hok => by
    cases hok
    exact growing_of_extends (extends_withPlace ho.1 ho.2) rfl
  have hbind := growing_bind' hact (k := n) fun x b' hok => by
    cases hok
    exact hf
  rwa [Nat.zero_add] at hbind

/-! ### The end of a block -/

/-- **A forward jump over one path to another.** -/
theorem growing_fork {condition : Condition} {first second : Label → Lowering Unit} {n : Nat}
    (hfirst : ∀ l b', Growing s (first l) n b')
    (hlabels : ∀ l b₁ u b₂, first l s b₁ = .ok (u, b₂) → SameLabels b₁ b₂)
    (hsecond : ∀ l b', Growing s (second l) 0 b') : Growing s (do
      let label ← newLabel
      jumpForward condition label
      first label
      placeLabel label
      second label) n b := by
  refine growing_newLabel (growing_jumpForward ?_)
  refine growing_bind' (k := 0) (hfirst _ _) fun _ b₁ hok => ?_
  refine growing_placeLabel ?_ (hsecond _ _)
  exact ((open_withLabel b).congr (sameLabels_pushJump _ _ _)).congr (hlabels _ _ _ _ hok)

theorem growing_branchExits (condition : Condition) (target fallthrough : UInt32) :
    Growing s (branchExits condition target fallthrough) 0 b := by
  unfold branchExits
  exact growing_straight straight_get fun _ _ => growing_fork (fun _ _ => growing_exitTo _ _)
    (fun _ _ _ _ => sameLabels_exitTo) fun _ _ => growing_exitTo _ _

/-- What is done around a delay slot, once it is counted. -/
def slotCode (slot : Instr) (pc : UInt32) (policy : SlotPolicy) : Lowering Unit := do
  if policy = .guarded then emit .saveFlags
  plain slot (pc + 4)
  releaseLocks
  if policy = .guarded then emit .restoreFlags
  if policy ≠ .plain then flushAll

theorem delaySlot_eq (slot : Instr) (pc : UInt32) (policy : SlotPolicy) :
    delaySlot slot pc policy = charge >>= fun _ => slotCode slot pc policy := rfl

theorem straight_slotCode (slot : Instr) (pc : UInt32) (policy : SlotPolicy) :
    Straight s (slotCode slot pc policy) := by
  have hrest : Straight s (do
      plain slot (pc + 4)
      releaseLocks
      if policy = .guarded then emit .restoreFlags
      if policy ≠ .plain then flushAll) := by
    refine straight_bind (straight_plain _ _) fun _ => straight_bind straight_releaseLocks fun _ => ?_
    have hflush : Straight s (if policy ≠ .plain then flushAll else pure ()) :=
      straight_ite straight_flushAll (straight_pure _)
    exact straight_ite (straight_bind (straight_emit trivial) fun _ => hflush) hflush
  unfold slotCode
  exact straight_ite (straight_bind (straight_emit trivial) fun _ => hrest) hrest

theorem growing_delaySlot (slot : Instr) (pc : UInt32) (policy : SlotPolicy) :
    Growing s (delaySlot slot pc policy) 1 b := by
  rw [delaySlot_eq]
  exact growing_charge fun _ => growing_of_straight (straight_slotCode _ _ _)

theorem sameLabels_delaySlot {slot : Instr} {pc : UInt32} {policy : SlotPolicy} {x : Unit}
    {b' : Builder} (hok : delaySlot slot pc policy s b = .ok (x, b')) : SameLabels b b' := by
  rw [delaySlot_eq] at hok
  obtain ⟨_, b₁, hcharge, hslot⟩ := bind_eq_ok hok
  cases hcharge
  exact (sameLabels_of_straight (straight_slotCode _ _ _) hslot :)

theorem sameLabels_slotExit {slot : Instr} {pc target : UInt32} {policy : SlotPolicy} {x : Unit}
    {b' : Builder} (hok : (do
      delaySlot slot pc policy
      exitHere target : Lowering Unit) s b = .ok (x, b')) : SameLabels b b' := by
  obtain ⟨_, b₁, hslot, hexit⟩ := bind_eq_ok hok
  obtain ⟨_, b₂, hget, hexit⟩ := bind_eq_ok hexit
  cases hget
  exact (sameLabels_exitTo hexit).trans (sameLabels_delaySlot hslot)

theorem straight_writeLink (reg : Fin 32) (pc : UInt32) : Straight s (writeLink reg pc) := by
  unfold writeLink
  exact straight_ite (straight_pure _) (straight_bind (straight_bindGprForWrite _)
    fun _ => straight_emit trivial)

theorem straight_compareOperands (i : Instr) : Straight s (compareOperands i) := by
  unfold compareOperands
  split
  · refine straight_bind (straight_bindGpr _) fun _ => ?_
    split
    · exact straight_bind (straight_bindGpr _) fun _ => straight_bind (straight_emit trivial)
        fun _ => straight_pure _
    · exact straight_bind (straight_bindGpr _) fun _ => straight_bind (straight_emit trivial)
        fun _ => straight_pure _
    · exact straight_bind (straight_emit trivial) fun _ => straight_pure _
    · exact straight_bind (straight_emit trivial) fun _ => straight_pure _
  · exact straight_bind (straight_bindGpr _) fun _ => straight_bind (straight_emit trivial)
      fun _ => straight_pure _
  · refine straight_bind (straight_bindReg _) fun _ => straight_bind (straight_emit trivial)
      fun _ => straight_bind (straight_emit trivial) fun _ => ?_
    exact straight_bind (straight_emit trivial) fun _ => straight_pure _

theorem straight_writeBranchLink (i : Instr) (pc : UInt32) : Straight s (writeBranchLink i pc) := by
  unfold writeBranchLink
  exact straight_ite (straight_writeLink _ _) (straight_pure _)

/-- The two exits of a likely branch, with the delay slot on one path. -/
theorem growing_likelyExits (condition : Condition) (slot : Instr)
    (pc target fallthrough skipped : UInt32) : Growing s (do
      let notTaken ← newLabel
      jumpForward condition notTaken
      delaySlot slot pc .flushed
      exitHere target
      placeLabel notTaken
      exitTo fallthrough skipped) 1 b := by
  have hslot : ∀ b', Growing s (do
      delaySlot slot pc .flushed
      exitHere target) 1 b' := fun _ =>
    growing_bind (k := 0) (growing_delaySlot _ _ _) fun _ _ => growing_exitHere _
  have hfork : Growing s (do
      let notTaken ← newLabel
      jumpForward condition notTaken
      (delaySlot slot pc .flushed >>= fun _ => exitHere target)
      placeLabel notTaken
      exitTo fallthrough skipped) 1 b :=
    growing_fork (fun _ => hslot) (fun _ _ _ _ => sameLabels_slotExit) fun _ _ => growing_exitTo _ _
  simp only [bind_assoc] at hfork
  exact hfork

theorem growing_likelyBranch (i : Instr) (pc : UInt32) (slot : Instr) :
    Growing s (likelyBranch i pc slot) 1 b := by
  unfold likelyBranch
  refine growing_straight (straight_compareOperands i) fun condition _ => ?_
  refine growing_straight straight_releaseLocks fun _ _ => ?_
  refine growing_straight (straight_writeBranchLink i pc) fun _ _ => ?_
  exact growing_straight straight_flushAll fun _ _ => growing_straight straight_get fun _ _ =>
    growing_likelyExits _ _ _ _ _ _

theorem growing_endBlock (pc : UInt32) : Growing s (endBlock pc) 0 b := by
  unfold endBlock
  exact growing_straight straight_flushAll fun _ _ => growing_zero (growing_exitHere _)
    fun _ _ => growing_moveTo _

theorem growing_ordinaryBranch (i : Instr) (pc : UInt32) (slot : Instr) :
    Growing s (ordinaryBranch i pc slot) 1 b := by
  unfold ordinaryBranch
  split
  · exact growing_bind (k := 0) (growing_delaySlot _ _ _) fun _ _ =>
      growing_straight straight_flushAll fun _ _ => growing_exitHere _
  · split
    · refine growing_straight (straight_compareOperands i) fun _ _ => ?_
      refine growing_straight straight_releaseLocks fun _ _ => ?_
      exact growing_straight (straight_writeBranchLink i pc) fun _ _ =>
        growing_bind (k := 0) (growing_delaySlot _ _ _) fun _ _ => growing_branchExits _ _ _
    · refine growing_straight (straight_writeBranchLink i pc) fun _ _ => ?_
      refine growing_bind (k := 0) (growing_delaySlot _ _ _) fun _ _ => ?_
      exact growing_straight straight_flushAll fun _ _ =>
        growing_straight (straight_compareOperands i) fun _ _ => growing_branchExits _ _ _

theorem growing_branch (i : Instr) (pc : UInt32) (slot : Instr) :
    Growing s (branch i pc slot) 2 b := by
  unfold branch
  refine growing_charge fun b => ?_
  split
  · exact growing_bind (k := 0) (growing_likelyBranch i pc slot) fun _ _ => growing_moveTo _
  · exact growing_bind (k := 0) (growing_ordinaryBranch i pc slot) fun _ _ => growing_moveTo _

theorem growing_jump (i : Instr) (pc : UInt32) (slot : Instr) :
    Growing s (jump i pc slot) 2 b := by
  have hrest : ∀ b, Growing s (do
      delaySlot slot pc .plain
      flushAll
      exitHere (i.jumpTarget pc)
      finish (pc + 8)) 1 b := fun b =>
    growing_bind (k := 0) (growing_delaySlot _ _ _) fun _ _ => growing_straight straight_flushAll
      fun _ _ => growing_zero (growing_exitHere _) fun _ _ => growing_moveTo _
  unfold jump
  refine growing_charge fun b => ?_
  split
  · exact growing_straight (straight_writeLink _ _) fun _ _ => hrest _
  · exact hrest _

/-- The end of a block that leaves for good. -/
theorem growing_leave {o : Operation} (hop : o.Leaves) (stop : UInt32) :
    Growing s (do
      subtractProgress
      emit o
      finish stop) 0 b :=
  growing_straight straight_subtractProgress fun _ _ => growing_zero (growing_emit hop)
    fun _ _ => growing_moveTo _

theorem growing_jumpRegister (i : Instr) (pc : UInt32) (slot : Instr) :
    Growing s (jumpRegister i pc slot) 2 b := by
  have hrest : ∀ target : Lowering HostReg, Straight s target → ∀ b, Growing s (do
      writeLink (jumpLink i) pc
      delaySlot slot pc .plain
      flushAll
      let target ← target
      subtractProgress
      emit (.exitDispatchReg target)
      finish (pc + 8)) 1 b := fun target htarget b => by
    refine growing_straight (straight_writeLink _ _) fun _ _ => ?_
    refine growing_bind (k := 0) (growing_delaySlot _ _ _) fun _ _ => ?_
    refine growing_straight straight_flushAll fun _ _ => growing_straight htarget fun a _ => ?_
    exact growing_leave (o := .exitDispatchReg a) trivial _
  unfold jumpRegister
  refine growing_charge fun _ => ?_
  refine growing_straight (straight_bindGpr _) fun _ _ => ?_
  by_cases hchanges : targetChanges i slot = true
  · simp only [hchanges, if_true]
    exact growing_straight (straight_move _ _) fun _ _ => hrest _ (straight_pure _) _
  · simp only [hchanges]
    exact hrest _ (straight_bindGpr _) _

theorem code_lt (i : Instr) : i.code.toNat < 2 ^ 24 := by
  rw [Instr.code, Instr.bits, UInt32.toNat_and]
  exact Nat.lt_of_le_of_lt Nat.and_le_right (by decide)

/-- How many instructions are counted for one that ends a block, its delay slot included. -/
def terminatorCount (memory : Memory) (i : Instr) (pc : UInt32) : Nat :=
  match i.family with
  | .syscall | .breakpoint => 1
  | _ => if (delaySlot? memory pc).isSome then 2 else 0

theorem terminatorCount_slot {memory : Memory} {i : Instr} {pc : UInt32}
    (hs : i.family ≠ .syscall) (hb : i.family ≠ .breakpoint) :
    terminatorCount memory i pc = if (delaySlot? memory pc).isSome then 2 else 0 := by
  unfold terminatorCount
  split
  · rename_i heq
    exact absurd heq hs
  · rename_i heq
    exact absurd heq hb
  · rfl

theorem growing_terminator (i : Instr) (pc : UInt32) :
    Growing s (terminator i pc) (terminatorCount s.memory i pc) b := by
  unfold terminator
  split
  · rename_i hfam
    unfold syscall
    rw [terminatorCount, hfam]
    exact growing_charge fun _ => growing_straight straight_flushAll fun _ _ =>
      growing_leave (o := .exitSyscall i.code (pc + 4)) (code_lt i) _
  · rename_i hfam
    unfold breakpoint
    rw [terminatorCount, hfam]
    exact growing_charge fun _ => growing_straight straight_flushAll fun _ _ =>
      growing_leave (o := .exitBreak pc) trivial _
  · rename_i hs hb
    rw [terminatorCount_slot hs hb]
    refine growing_read ?_
    cases hslot : delaySlot? s.memory pc with
    | none =>
      unfold leaveToInterpreter
      exact growing_straight straight_flushAll fun _ _ =>
        growing_leave (o := .exitInterpret pc) trivial _
    | some slot =>
      dsimp only [Option.isSome_some, if_true]
      split
      · exact growing_jump i pc _
      · exact growing_jumpRegister i pc _
      · exact growing_branch i pc _

/-! ### Whole blocks -/

theorem straight_checkSpace : Straight s checkSpace := by
  unfold checkSpace
  refine straight_bind straight_get fun _ => ?_
  split
  · exact straight_bind straight_read fun _ => straight_throw _
  · exact straight_pure _

theorem growing_bodyInstruction (i : Instr) (pc : UInt32) :
    Growing s (bodyInstruction i pc) 1 b := by
  unfold bodyInstruction
  refine growing_charge fun _ => growing_straight (straight_plain i pc) fun _ _ => ?_
  exact growing_zero (growing_moveTo _) fun _ _ => growing_of_straight
    (straight_bind straight_releaseLocks fun _ => straight_checkSpace)

theorem growing_lastInstruction (i : Instr) (pc : UInt32) :
    Growing s (lastInstruction i pc) (terminatorCount s.memory i pc) b := by
  unfold lastInstruction
  exact growing_bind (k := 0) (growing_terminator i pc) fun _ _ => growing_of_straight
    (straight_bind straight_releaseLocks fun _ => straight_checkSpace)

theorem terminatorCount_le (memory : Memory) (i : Instr) (pc : UInt32) :
    terminatorCount memory i pc ≤ 2 := by
  unfold terminatorCount
  split
  · decide
  · decide
  · split <;> decide

/-- The instructions of a block from one that the block need not end in front of. -/
def instructionsAt (setting : Setting) (room : Nat) (pc : UInt32) : Lowering Unit :=
  match setting.memory.fetch? pc with
  | none =>
    if pc = setting.start then throw (.refused setting.start .unmappedStart) else endBlock pc
  | some word =>
    if (Instr.mk word).family.isTerminator then
      if belongsToNext setting ⟨word⟩ pc then endBlock pc else lastInstruction ⟨word⟩ pc
    else do
      bodyInstruction ⟨word⟩ pc
      instructions room (pc + 4)

theorem instructions_succ (room : Nat) (pc : UInt32) : instructions (room + 1) pc = (do
    let setting ← read
    let ends ← mustEndBefore pc
    if pc ≠ setting.start && ends then endBlock pc else instructionsAt setting room pc) := rfl

/-- **How the lowering goes on at an instruction**: the block is closed in front of it, or ends with
it, or holds it and goes on behind it. -/
theorem instructions_ok {room : Nat} {pc : UInt32} {x : Unit} {b' : Builder}
    (hok : instructions (room + 1) pc s b = .ok (x, b')) :
    (pc ≠ s.start ∧ endBlock pc s b = .ok (x, b')) ∨
    ∃ word, s.memory.fetch? pc = some word ∧
      (((Instr.mk word).family.isTerminator = true ∧ lastInstruction ⟨word⟩ pc s b = .ok (x, b')) ∨
        ((Instr.mk word).family.isTerminator = false ∧
          ∃ b₁, bodyInstruction ⟨word⟩ pc s b = .ok ((), b₁) ∧
            instructions room (pc + 4) s b₁ = .ok (x, b'))) := by
  rw [instructions_succ] at hok
  obtain ⟨_, b₁, hread, hok⟩ := bind_eq_ok hok
  cases hread
  obtain ⟨ends, b₂, hends, hok⟩ := bind_eq_ok hok
  obtain ⟨_, b₃, hread, hends⟩ := bind_eq_ok hends
  cases hread
  obtain ⟨_, b₄, hget, hends⟩ := bind_eq_ok hends
  cases hget
  cases hends
  split at hok
  · rename_i hcond
    rw [Bool.and_eq_true] at hcond
    exact .inl ⟨of_decide_eq_true hcond.1, hok⟩
  · unfold instructionsAt at hok
    cases hfetch : s.memory.fetch? pc with
    | none =>
      rw [hfetch] at hok
      dsimp only at hok
      split at hok
      · cases hok
      · rename_i hne
        exact .inl ⟨hne, hok⟩
    | some word =>
      rw [hfetch] at hok
      dsimp only at hok
      split at hok
      · rename_i hterm
        split at hok
        · rename_i hnext
          rw [belongsToNext, Bool.and_eq_true, Bool.and_eq_true] at hnext
          exact .inl ⟨of_decide_eq_true hnext.1.2, hok⟩
        · exact .inr ⟨word, rfl, .inl ⟨hterm, hok⟩⟩
      · rename_i hterm
        obtain ⟨_, b₅, hbody, hrest⟩ := bind_eq_ok hok
        exact .inr ⟨word, rfl, .inr ⟨Bool.eq_false_iff.mpr hterm, b₅, hbody, hrest⟩⟩

/-- **The instructions of a block go on from the builder in front of them.** -/
theorem growing_instructions {room : Nat} {pc : UInt32} {x : Unit} {b' : Builder}
    (hok : instructions room pc s b = .ok (x, b')) : b.Extends b' ∧
      ∃ n, n ≤ room + 1 ∧ b'.progress.count = b.progress.count + UInt32.ofNat n := by
  have hend : ∀ {room pc} {b : Builder}, endBlock pc s b = .ok (x, b') → b.Extends b' ∧
      ∃ n, n ≤ room + 1 ∧ b'.progress.count = b.progress.count + UInt32.ofNat n := fun hok => by
    obtain ⟨hext, hcount⟩ := growing_endBlock _ _ _ hok
    exact ⟨hext, 0, Nat.zero_le _, hcount⟩
  induction room generalizing pc b with
  | zero => exact hend hok
  | succ room ih =>
    rcases instructions_ok hok with ⟨-, hok⟩ | ⟨word, -, ⟨-, hok⟩ | ⟨-, b₁, hbody, hrest⟩⟩
    · exact hend hok
    · obtain ⟨hext, hcount⟩ := growing_lastInstruction _ pc _ _ hok
      have hle := terminatorCount_le s.memory ⟨word⟩ pc
      exact ⟨hext, _, by omega, hcount⟩
    · obtain ⟨hext, hcount⟩ := growing_bodyInstruction _ pc _ _ hbody
      obtain ⟨hext', n, hn, hcount'⟩ := ih hrest
      refine ⟨hext.trans hext', 1 + n, by omega, ?_⟩
      rw [hcount', hcount, UInt32.ofNat_add, UInt32.add_assoc]

end Lowering

end Dynarec
