import Dynarec.Proofs.Lower.Closing

/-!
# Writing a sketch down

When every word fits, emitting a tail and filling in its forward jump appends exactly the code of
the tail (`Builder.resolve_endBy`), and how much fits afterwards depends on the size of the tail
alone (`Builder.room_endBy`).
-/

namespace Dynarec

/-- How much fits behind emitted code. -/
structure Room where
  left : Nat
  overflowed : Bool

namespace Room

/-- What is left after some words. -/
def after (r : Room) (n : Nat) : Room := ⟨r.left - n, r.overflowed || decide (r.left < n)⟩

@[simp] theorem after_zero (r : Room) : r.after 0 = r := by
  simp [after]

@[simp] theorem after_after (r : Room) (n k : Nat) : (r.after n).after k = r.after (n + k) := by
  rw [after, after, after, Room.mk.injEq]
  refine ⟨by dsimp only; omega, ?_⟩
  dsimp only
  rw [Bool.or_assoc, ← Bool.decide_or]
  exact congrArg (r.overflowed || ·) (decide_eq_decide.mpr (by omega))

end Room

namespace Tail

/-- Number of words of a tail. -/
def size : Tail → Nat
  | leave _ => 2
  | fork _ slot _ _ => slot.length + 5

@[simp] theorem length_ops (inRegister : Bool) (offset : Nat) (t : Tail) :
    (t.ops inRegister offset).length = t.size := by
  cases t with
  | leave way => rfl
  | fork condition slot passed taken =>
    simp only [ops, size, List.length_cons, List.length_append, Leave.length_ops]

end Tail

namespace Sketch

/-- Number of words of a sketch. -/
def size (k : Sketch) : Nat := k.front.length + k.tail.size

@[simp] theorem length_ops (inRegister : Bool) (offset : Nat) (k : Sketch) :
    (k.ops inRegister offset).length = k.size := by
  rw [ops, List.length_append, Tail.length_ops, size]

end Sketch

namespace CodeSpace

variable {c : CodeSpace} {ops : List Operation}

/-- How much fits. -/
def room (c : CodeSpace) : Room := ⟨c.spaceLeft, c.overflowed⟩

theorem room_emit (c : CodeSpace) (w : HostWord) : (c.emit w).room = c.room.after 1 := by
  rw [emit]
  split
  · rename_i hlt
    rw [offset] at hlt
    rw [room, room, Room.after, Room.mk.injEq, spaceLeft, spaceLeft, Array.size_push]
    refine ⟨by dsimp only; omega, ?_⟩
    dsimp only
    rw [decide_eq_false (by omega), Bool.or_false]
  · rename_i hlt
    rw [offset] at hlt
    rw [room, room, Room.after, Room.mk.injEq, spaceLeft, spaceLeft]
    refine ⟨by dsimp only; omega, ?_⟩
    dsimp only
    rw [decide_eq_true (by omega), Bool.or_true]

theorem room_emitOps (c : CodeSpace) (ops : List Operation) :
    (c.emitOps ops).room = c.room.after ops.length := by
  induction ops generalizing c with
  | nil => exact (Room.after_zero _).symm
  | cons op rest ih =>
    show ((c.emit op.encode).emitOps rest).room = _
    rw [ih, room_emit, Room.after_after, List.length_cons, Nat.add_comm]

theorem references_emitOps (c : CodeSpace) (ops : List Operation) :
    (c.emitOps ops).references = c.references := by
  induction ops generalizing c with
  | nil => rfl
  | cons op rest ih =>
    refine (ih (c.emit op.encode)).trans ?_
    rw [emit]
    split <;> rfl

/-- The words of operations are appended. -/
def extend (c : CodeSpace) (ops : List Operation) : CodeSpace :=
  { c with words := c.words ++ (ops.map Operation.encode).toArray }

@[simp] theorem extend_extend (c : CodeSpace) (xs ys : List Operation) :
    (c.extend xs).extend ys = c.extend (xs ++ ys) := by
  simp only [extend, List.map_append, Array.append_assoc, List.append_toArray]

@[simp] theorem offset_extend (c : CodeSpace) (ops : List Operation) :
    (c.extend ops).offset = c.offset + ops.length := by
  simp [extend, offset]

theorem emit_eq_extend {op : Operation} (hfits : (c.emit op.encode).overflowed = false) :
    c.overflowed = false ∧ c.emit op.encode = c.extend [op] := by
  obtain ⟨hc, heq⟩ := emit_of_fits hfits
  refine ⟨hc, heq.trans ?_⟩
  simp [extend]

theorem emitOps_eq_extend (hfits : (c.emitOps ops).overflowed = false) :
    c.overflowed = false ∧ c.emitOps ops = c.extend ops := by
  induction ops generalizing c with
  | nil => exact ⟨hfits, by simp [extend, emitOps]⟩
  | cons op rest ih =>
    obtain ⟨hone, hrest⟩ := ih (c := c.emit op.encode) hfits
    obtain ⟨hc, hemit⟩ := emit_eq_extend hone
    refine ⟨hc, ?_⟩
    show (c.emit op.encode).emitOps rest = _
    rw [hrest, hemit, extend_extend]
    rfl

end CodeSpace

namespace Builder

variable {inRegister : Bool} {b : Builder}

open Lowering

theorem room_leaveBy (x : Leave) : (b.leaveBy inRegister x).code.room = b.code.room.after 2 := by
  have hemit : (b.leaveBy inRegister x).code =
      (b.code.emit (Operation.charge inRegister x.amount).encode).emit x.op.encode := by
    obtain ⟨amount, op⟩ := x
    cases op <;> rfl
  rw [hemit, CodeSpace.room_emit, CodeSpace.room_emit, Room.after_after]

theorem room_pushJump (condition : Condition) (label : Label) :
    (pushJump b condition label).code.room = b.code.room.after 1 := by
  rw [← CodeSpace.room_emit b.code (Operation.jumpIf condition 0).encode]
  show (b.code.emitReference _ label).room = _
  rw [emitReference_eq]
  split <;> rfl

/-- **What is left behind a tail.** -/
theorem room_endBy (t : Tail) : (b.endBy inRegister t).code.room = b.code.room.after t.size := by
  cases t with
  | leave way => exact room_leaveBy way
  | fork condition slot passed taken =>
    rw [endBy, room_leaveBy]
    show (Builder.leaveBy inRegister _ passed).code.room.after 2 = _
    rw [room_leaveBy]
    show (((CodeSpace.emitOps _ slot).room.after 2).after 2) = _
    rw [CodeSpace.room_emitOps, room_pushJump, Room.after_after, Room.after_after, Room.after_after]
    exact congrArg b.code.room.after (by rw [Tail.size]; omega)

theorem room_closed (k : Closing) :
    (b.closed inRegister k).code.room = b.code.room.after k.sketch.size := by
  rw [closed, room_endBy]
  show (b.code.emitOps k.sketch.front).room.after _ = _
  rw [CodeSpace.room_emitOps, Room.after_after, Sketch.size]

theorem leaveBy_eq {x : Leave} (hfits : (b.leaveBy inRegister x).code.overflowed = false) :
    b.code.overflowed = false ∧
      (b.leaveBy inRegister x).code = b.code.extend (x.ops inRegister) ∧
      (b.leaveBy inRegister x).exits = b.exits ++ (x.exits b.code.offset).toArray := by
  have hcode : (b.leaveBy inRegister x).code =
      (b.code.emit (Operation.charge inRegister x.amount).encode).emit x.op.encode := by
    obtain ⟨amount, op⟩ := x
    cases op <;> rfl
  rw [hcode] at hfits
  obtain ⟨hcharge, hleave⟩ := CodeSpace.emit_eq_extend hfits
  obtain ⟨hb, hone⟩ := CodeSpace.emit_eq_extend hcharge
  refine ⟨hb, ?_, ?_⟩
  · rw [hcode, hleave, hone, CodeSpace.extend_extend]
    rfl
  · obtain ⟨amount, op⟩ := x
    cases op with
    | exitDispatch target =>
      show b.exits.push { target := target, stub := (b.code.emit _).offset } = _
      rw [hone, CodeSpace.offset_extend]
      simp [Leave.exits]
    | _ => simp [leaveBy, Leave.exits]

/-- The first of the words that were appended is changed. -/
theorem modify_extend (c : CodeSpace) {op op' : Operation} (rest : List Operation)
    {f : HostWord → HostWord} (hf : f op.encode = op'.encode) :
    (c.extend (op :: rest)).words.modify c.offset f = (c.extend (op' :: rest)).words := by
  refine Array.ext_getElem? fun i => ?_
  simp only [CodeSpace.extend, CodeSpace.offset, Array.getElem?_modify, Array.getElem?_append,
    List.map_cons, List.getElem?_toArray]
  by_cases hi : c.words.size = i
  · subst hi
    simp [hf]
  · rw [if_neg hi]
    by_cases hlt : i < c.words.size
    · rw [if_pos hlt, if_pos hlt]
    · rw [if_neg hlt, if_neg hlt, List.getElem?_cons, List.getElem?_cons, if_neg (by omega),
        if_neg (by omega)]

/-- The word of a jump gets its target. -/
theorem encode_withImmediate (condition : Condition) (target : Nat) :
    CodeSpace.withImmediate (Operation.jumpIf condition 0).encode target =
      (Operation.jumpIf condition (UInt32.ofNat target)).encode := rfl

/-- A jump to the only label, with straight code behind it. -/
theorem code_jumped {condition : Condition} {slot : List Operation} (hrefs : b.code.references = [])
    (hlabels : b.code.labels = #[]) (hfits : (b.jumped condition slot).code.overflowed = false) :
    b.code.overflowed = false ∧ (b.jumped condition slot).code =
      { b.code.extend (.jumpIf condition 0 :: slot) with
        labels := #[none]
        references := [(b.code.offset, 0)] } := by
  obtain ⟨hone, hslot⟩ := CodeSpace.emitOps_eq_extend hfits
  obtain ⟨hb, hjump⟩ := emitReference_of_fits (hone :)
  refine ⟨hb, hslot.trans ?_⟩
  refine (congrArg (fun c => CodeSpace.extend c slot) hjump).trans ?_
  rw [CodeSpace.mk.injEq]
  refine ⟨by simp [CodeSpace.extend, withLabel], rfl, rfl, ?_, ?_⟩
  · show b.code.labels.push none = _
    rw [hlabels]
    rfl
  · show b.code.references ++ [(b.code.offset, b.code.labels.size)] = _
    rw [hrefs, hlabels]
    rfl

/-- **A tail is written down** when every word fits. -/
theorem resolve_endBy {t : Tail} (hrefs : b.code.references = []) (hlabels : b.code.labels = #[])
    (hfits : (b.endBy inRegister t).code.overflowed = false) :
    b.code.overflowed = false ∧
      (b.endBy inRegister t).code.resolve =
        (.ok (), b.code.extend (t.ops inRegister b.code.offset)) ∧
      (b.endBy inRegister t).exits = b.exits ++ (t.exits b.code.offset).toArray := by
  cases t with
  | leave way =>
    obtain ⟨hb, hcode, hexits⟩ := leaveBy_eq hfits
    refine ⟨hb, ?_, hexits⟩
    show (b.leaveBy inRegister way).code.resolve = _
    rw [hcode, CodeSpace.resolve]
    have hnone : (b.code.extend (way.ops inRegister)).references = [] := hrefs
    rw [hnone, CodeSpace.resolveReferences]
    refine congrArg (fun c => (Except.ok (), c)) ?_
    rw [CodeSpace.mk.injEq]
    exact ⟨rfl, rfl, rfl, hlabels.symm, hnone.symm⟩
  | fork condition slot passed taken =>
    -- back from the last word to the first, every word fitted
    rw [endBy] at hfits ⊢
    obtain ⟨hplace, hcode₃, hexits₃⟩ := leaveBy_eq hfits
    obtain ⟨hpassed, hcode₂, hexits₂⟩ := leaveBy_eq (hplace :)
    obtain ⟨hb, hcode₁⟩ := code_jumped hrefs hlabels hpassed
    have hoffset₁ : (b.jumped condition slot).code.offset = b.code.offset + slot.length + 1 := by
      rw [hcode₁]
      simp [CodeSpace.offset, CodeSpace.extend]
      omega
    have hoffset₂ : ((b.jumped condition slot).leaveBy inRegister passed).code.offset =
        b.code.offset + slot.length + 3 := by
      rw [hcode₂, CodeSpace.offset_extend, hoffset₁, Leave.length_ops]
    refine ⟨hb, ?_, ?_⟩
    · have hlabel : b.code.labels.size = 0 := by rw [hlabels]; rfl
      have hcode : (withPlace ((b.jumped condition slot).leaveBy inRegister passed)
          b.code.labels.size).code = { b.code.extend (.jumpIf condition 0 ::
            (slot ++ passed.ops inRegister)) with
          labels := #[some (b.code.offset + slot.length + 3)]
          references := [(b.code.offset, 0)] } := by
        show ((b.jumped condition slot).leaveBy inRegister passed).code.place _ = _
        rw [CodeSpace.place, hoffset₂, hcode₂, hcode₁, hlabel, CodeSpace.mk.injEq]
        refine ⟨?_, rfl, rfl, rfl, rfl⟩
        simp [CodeSpace.extend]
      rw [hcode₃, hcode, CodeSpace.resolve]
      refine congrArg (fun c => (Except.ok (), c)) ?_
      rw [CodeSpace.mk.injEq]
      refine ⟨?_, rfl, rfl, hlabels.symm, hrefs.symm⟩
      have hmodify := modify_extend b.code (slot ++ passed.ops inRegister ++ taken.ops inRegister)
        (f := (CodeSpace.withImmediate · (b.code.offset + slot.length + 3)))
        (encode_withImmediate condition (b.code.offset + slot.length + 3))
      refine Eq.trans ?_ hmodify
      refine congrArg (fun ws => Array.modify ws b.code.offset
        (CodeSpace.withImmediate · (b.code.offset + slot.length + 3))) ?_
      simp [CodeSpace.extend]
    · rw [hexits₃]
      show ((b.jumped condition slot).leaveBy inRegister passed).exits ++
        (taken.exits ((b.jumped condition slot).leaveBy inRegister passed).code.offset).toArray = _
      rw [hexits₂, hoffset₁, hoffset₂, Array.append_assoc]
      refine congrArg (b.exits ++ ·) ?_
      rw [Tail.exits]
      simp

/-- **A sketch is written down** when every word fits. -/
theorem resolve_closed {k : Closing} (hrefs : b.code.references = []) (hlabels : b.code.labels = #[])
    (hfits : (b.closed inRegister k).code.overflowed = false) :
    b.code.overflowed = false ∧
      (b.closed inRegister k).code.resolve =
        (.ok (), b.code.extend (k.sketch.ops inRegister b.code.offset)) ∧
      (b.closed inRegister k).exits = b.exits ++ (k.sketch.exits b.code.offset).toArray := by
  rw [closed] at hfits ⊢
  obtain ⟨hfront, hresolve, hexits⟩ := resolve_endBy
    ((CodeSpace.references_emitOps b.code k.sketch.front).trans hrefs)
    ((labels_emitOps b.code k.sketch.front).trans hlabels) hfits
  obtain ⟨hb, hcode⟩ := CodeSpace.emitOps_eq_extend (hfront :)
  have hoffset : (b.code.emitOps k.sketch.front).offset = b.code.offset + k.sketch.front.length := by
    rw [hcode, CodeSpace.offset_extend]
  refine ⟨hb, hresolve.trans (congrArg (Prod.mk (Except.ok ())) ?_), hexits.trans ?_⟩
  · show (b.code.emitOps k.sketch.front).extend
      (k.sketch.tail.ops inRegister (b.code.emitOps k.sketch.front).offset) = _
    rw [hoffset, hcode, CodeSpace.extend_extend]
    rfl
  · show b.exits ++ (k.sketch.tail.exits (b.code.emitOps k.sketch.front).offset).toArray = _
    rw [hoffset]
    rfl

end Builder

end Dynarec
