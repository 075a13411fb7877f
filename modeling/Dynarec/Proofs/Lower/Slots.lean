import Dynarec.Lower.Slots

/-!
# Slots

What each operation on slots does to what a slot holds, whether it is dirty and whether it is
locked.  An arena is `Sound` when no value is held twice; then `find?` finds the slot that holds a
value (`Sound.find?_eq_some_iff`).  The slot that `select?` offers is not locked
(`not_locked_of_select?`).
-/

namespace Dynarec

namespace SlotArena

variable {n : Nat} {G : Type} (a : SlotArena n G)

/-- What a slot holds. -/
def guest (i : Fin n) : Option G := (a.slot i).guest

/-- A slot is locked. -/
def locked (i : Fin n) : Bool := (a.slot i).locked

/-- **No value is held twice.** -/
def Sound (a : SlotArena n G) : Prop :=
  ∀ i j g, a.guest i = some g → a.guest j = some g → i = j

/-! ### One slot after an operation -/

theorem slot_update (i j : Fin n) (f : Slot G → Slot G) :
    (a.update i f).slot j = if i = j then f (a.slot i) else a.slot j := by
  show (a.slots.set i _)[j] = _
  rw [Fin.getElem_fin, Vector.getElem_set]
  by_cases hij : i = j
  · rw [if_pos hij, if_pos (congrArg Fin.val hij)]
    rfl
  · rw [if_neg hij, if_neg (fun h => hij (Fin.ext h))]
    rfl

theorem slot_updateAll (i : Fin n) (f : Slot G → Slot G) :
    (a.updateAll f).slot i = f (a.slot i) := by
  show (a.slots.map f)[i] = _
  rw [Fin.getElem_fin, Vector.getElem_map]
  rfl

theorem slot_empty (i : Fin n) : (empty : SlotArena n G).slot i = {} := by
  show ((Vector.replicate n {})[i] : Slot G) = _
  rw [Fin.getElem_fin, Vector.getElem_replicate]

@[simp] theorem guest_empty (i : Fin n) : (empty : SlotArena n G).guest i = none :=
  congrArg Slot.guest (slot_empty i)

@[simp] theorem isDirty_empty (i : Fin n) : (empty : SlotArena n G).isDirty i = false :=
  congrArg Slot.dirty (slot_empty i)

@[simp] theorem locked_empty (i : Fin n) : (empty : SlotArena n G).locked i = false :=
  congrArg Slot.locked (slot_empty i)

/-- What an update of one slot keeps of every slot. -/
theorem part_update {β : Type} (part : Slot G → β) (i j : Fin n) {f : Slot G → Slot G}
    (hf : ∀ s, part (f s) = part s) :
    part ((a.update i f).slot j) = part (a.slot j) := by
  rw [slot_update]
  by_cases hij : i = j
  · rw [if_pos hij, hf, hij]
  · rw [if_neg hij]

/-- What an update of one slot sets there. -/
theorem part_update_eq {β : Type} (part : Slot G → β) (i j : Fin n) {f : Slot G → Slot G} {v : β}
    (hf : ∀ s, part (f s) = v) :
    part ((a.update i f).slot j) = if i = j then v else part (a.slot j) := by
  rw [slot_update]
  by_cases hij : i = j
  · rw [if_pos hij, if_pos hij, hf]
  · rw [if_neg hij, if_neg hij]

/-- What an update of all slots makes of each. -/
theorem part_updateAll {β : Type} (part : Slot G → β) (i : Fin n) {f : Slot G → Slot G}
    {v : Slot G → β} (hf : ∀ s, part (f s) = v s) : part ((a.updateAll f).slot i) = v (a.slot i) := by
  rw [slot_updateAll, hf]

@[simp] theorem guest_setDirty (i j : Fin n) (d : Bool) :
    (a.setDirty i d).guest j = a.guest j := a.part_update Slot.guest i j fun _ => rfl

@[simp] theorem isDirty_setDirty (i j : Fin n) (d : Bool) :
    (a.setDirty i d).isDirty j = if i = j then d else a.isDirty j :=
  a.part_update_eq Slot.dirty i j fun _ => rfl

@[simp] theorem locked_setDirty (i j : Fin n) (d : Bool) :
    (a.setDirty i d).locked j = a.locked j := a.part_update Slot.locked i j fun _ => rfl

theorem slot_touch (i j : Fin n) :
    (a.touch i).slot j =
      if i = j then { a.slot i with lastUsed := a.clock + 1 } else a.slot j :=
  slot_update { a with clock := a.clock + 1 } i j _

/-- What a use keeps of every slot. -/
theorem part_touch {β : Type} (part : Slot G → β) (i j : Fin n)
    (hpart : ∀ s t, part { s with lastUsed := t } = part s) :
    part ((a.touch i).slot j) = part (a.slot j) :=
  part_update { a with clock := a.clock + 1 } part i j fun s => hpart s _

@[simp] theorem guest_touch (i j : Fin n) : (a.touch i).guest j = a.guest j :=
  a.part_touch Slot.guest i j fun _ _ => rfl

@[simp] theorem isDirty_touch (i j : Fin n) : (a.touch i).isDirty j = a.isDirty j :=
  a.part_touch Slot.dirty i j fun _ _ => rfl

@[simp] theorem locked_touch (i j : Fin n) : (a.touch i).locked j = a.locked j :=
  a.part_touch Slot.locked i j fun _ _ => rfl

@[simp] theorem guest_lock (i j : Fin n) : (a.lock i).guest j = a.guest j :=
  a.part_update Slot.guest i j fun _ => rfl

@[simp] theorem isDirty_lock (i j : Fin n) : (a.lock i).isDirty j = a.isDirty j :=
  a.part_update Slot.dirty i j fun _ => rfl

@[simp] theorem locked_lock (i j : Fin n) :
    (a.lock i).locked j = if i = j then true else a.locked j :=
  a.part_update_eq Slot.locked i j fun _ => rfl

@[simp] theorem guest_clear (i j : Fin n) :
    (a.clear i).guest j = if i = j then none else a.guest j :=
  a.part_update_eq Slot.guest i j fun _ => rfl

@[simp] theorem isDirty_clear (i j : Fin n) :
    (a.clear i).isDirty j = if i = j then false else a.isDirty j :=
  a.part_update_eq Slot.dirty i j fun _ => rfl

@[simp] theorem locked_clear (i j : Fin n) : (a.clear i).locked j = a.locked j :=
  a.part_update Slot.locked i j fun _ => rfl

@[simp] theorem guest_assign (i j : Fin n) (g : G) :
    (a.assign i g).guest j = if i = j then some g else a.guest j :=
  (guest_touch _ i j).trans (a.part_update_eq Slot.guest i j fun _ => rfl)

@[simp] theorem isDirty_assign (i j : Fin n) (g : G) :
    (a.assign i g).isDirty j = if i = j then false else a.isDirty j :=
  (isDirty_touch _ i j).trans (a.part_update_eq Slot.dirty i j fun _ => rfl)

@[simp] theorem locked_assign (i j : Fin n) (g : G) :
    (a.assign i g).locked j = if i = j then true else a.locked j :=
  (locked_touch _ i j).trans (a.part_update_eq Slot.locked i j fun _ => rfl)

@[simp] theorem guest_releaseLocks (i : Fin n) : a.releaseLocks.guest i = a.guest i :=
  a.part_updateAll Slot.guest i fun _ => rfl

@[simp] theorem isDirty_releaseLocks (i : Fin n) : a.releaseLocks.isDirty i = a.isDirty i :=
  a.part_updateAll Slot.dirty i fun _ => rfl

@[simp] theorem locked_releaseLocks (i : Fin n) : a.releaseLocks.locked i = false :=
  a.part_updateAll Slot.locked i fun _ => rfl

@[simp] theorem guest_clearAll (i : Fin n) : a.clearAll.guest i = none :=
  a.part_updateAll Slot.guest i fun _ => rfl

@[simp] theorem isDirty_clearAll (i : Fin n) : a.clearAll.isDirty i = false :=
  a.part_updateAll Slot.dirty i fun _ => rfl

@[simp] theorem locked_clearAll (i : Fin n) : a.clearAll.locked i = false :=
  a.part_updateAll Slot.locked i fun _ => rfl

@[simp] theorem guest_markClean (i : Fin n) : a.markClean.guest i = a.guest i :=
  a.part_updateAll Slot.guest i fun _ => rfl

@[simp] theorem isDirty_markClean (i : Fin n) : a.markClean.isDirty i = false :=
  a.part_updateAll Slot.dirty i fun _ => rfl

@[simp] theorem locked_markClean (i : Fin n) : a.markClean.locked i = a.locked i :=
  a.part_updateAll Slot.locked i fun _ => rfl

/-! ### Finding a value -/

variable {a}

theorem guest_of_find? [DecidableEq G] {g : G} {i : Fin n} (h : a.find? g = some i) :
    a.guest i = some g := by
  have hp := List.find?_some h
  rwa [beq_iff_eq] at hp

theorem find?_eq_none_iff [DecidableEq G] {g : G} :
    a.find? g = none ↔ ∀ i, a.guest i ≠ some g := by
  rw [find?, List.find?_eq_none]
  constructor
  · intro hall i hi
    exact hall i (List.mem_finRange i) (by rw [beq_iff_eq]; exact hi)
  · intro hall i _ hi
    rw [beq_iff_eq] at hi
    exact hall i hi

theorem Sound.find?_eq_some_iff [DecidableEq G] (h : a.Sound) {g : G} {i : Fin n} :
    a.find? g = some i ↔ a.guest i = some g := by
  constructor
  · exact guest_of_find?
  · intro hi
    cases hf : a.find? g with
    | none => exact absurd hi (find?_eq_none_iff.mp hf i)
    | some j => rw [h j i g (guest_of_find? hf) hi]

theorem held?_eq_some_iff {i : Fin n} {g : G} {d : Bool} :
    a.held? i = some (g, d) ↔ a.guest i = some g ∧ a.isDirty i = d := by
  rw [held?, Option.map_eq_some_iff]
  constructor
  · rintro ⟨x, hx, heq⟩
    rw [Prod.mk.injEq] at heq
    exact ⟨by rw [← heq.1]; exact hx, heq.2⟩
  · rintro ⟨hg, hd⟩
    exact ⟨g, hg, by rw [Prod.mk.injEq]; exact ⟨rfl, hd⟩⟩

theorem held?_eq_none_iff {i : Fin n} : a.held? i = none ↔ a.guest i = none := by
  rw [held?, Option.map_eq_none_iff]
  rfl

theorem mem_dirtyBindings_iff {i : Fin n} {g : G} :
    (i, g) ∈ a.dirtyBindings ↔ a.guest i = some g ∧ a.isDirty i = true := by
  rw [dirtyBindings, List.mem_filterMap, ← held?_eq_some_iff]
  constructor
  · rintro ⟨j, -, hj⟩
    cases hh : a.held? j with
    | none => rw [hh] at hj; cases hj
    | some p =>
      obtain ⟨x, d⟩ := p
      rw [hh] at hj
      cases d with
      | false => cases hj
      | true => cases hj; exact hh
  · intro hh
    exact ⟨i, List.mem_finRange i, by rw [hh]⟩

/-! ### The slot that is offered -/

theorem mem_of_foldl_older {l : List (Fin n)} {best : Option (Fin n)} {i : Fin n}
    (h : l.foldl a.older best = some i) : i ∈ l ∨ best = some i := by
  induction l generalizing best with
  | nil => exact .inr h
  | cons j rest ih =>
    rcases ih h with hi | hi
    · exact .inl (List.mem_cons_of_mem _ hi)
    · cases best with
      | none =>
        cases hi
        exact .inl List.mem_cons_self
      | some k =>
        rw [older] at hi
        by_cases hlt : (a.slot j).lastUsed < (a.slot k).lastUsed
        · simp only [if_pos hlt, Option.some_inj] at hi
          exact .inl (by rw [hi]; exact List.mem_cons_self)
        · simp only [if_neg hlt] at hi
          exact .inr hi

theorem not_locked_of_leastRecent? {d : Bool} {i : Fin n} (h : a.leastRecent? d = some i) :
    a.locked i = false := by
  rcases mem_of_foldl_older h with hi | hi
  · have hp := (List.mem_filter.mp hi).2
    rw [Bool.and_eq_true, Bool.not_eq_true'] at hp
    exact hp.1
  · cases hi

/-- **The slot that is offered is not locked.** -/
theorem not_locked_of_select? {i : Fin n} (h : a.select? = some i) : a.locked i = false := by
  rw [select?] at h
  cases hf : (List.finRange n).find? fun i => (a.slot i).guest.isNone && !(a.slot i).locked with
  | some j =>
    rw [hf] at h
    cases h
    have hp := List.find?_some hf
    rw [Bool.and_eq_true, Bool.not_eq_true'] at hp
    exact hp.2
  | none =>
    rw [hf] at h
    cases hc : a.leastRecent? false with
    | some j =>
      simp only [hc, Option.some_or, Option.some_inj] at h
      rw [← h]
      exact not_locked_of_leastRecent? hc
    | none =>
      simp only [hc, Option.none_or] at h
      exact not_locked_of_leastRecent? h

/-! ### Soundness -/

theorem sound_of_guest_eq {b : SlotArena n G} (h : a.Sound) (hb : ∀ i, b.guest i = a.guest i) :
    b.Sound := by
  intro i j g hi hj
  rw [hb] at hi hj
  exact h i j g hi hj

theorem sound_empty : (empty : SlotArena n G).Sound := by
  intro i j g hi
  rw [guest_empty] at hi
  cases hi

theorem sound_clearAll : a.clearAll.Sound := by
  intro i j g hi
  rw [guest_clearAll] at hi
  cases hi

theorem Sound.clear (h : a.Sound) (i : Fin n) : (a.clear i).Sound := by
  intro j k g hj hk
  rw [guest_clear] at hj hk
  by_cases hij : i = j
  · rw [if_pos hij] at hj
    cases hj
  · by_cases hik : i = k
    · rw [if_pos hik] at hk
      cases hk
    · rw [if_neg hij] at hj
      rw [if_neg hik] at hk
      exact h j k g hj hk

/-- A value that no slot holds may be bound. -/
theorem Sound.assign (h : a.Sound) {i : Fin n} {g : G} (hg : ∀ j, i ≠ j → a.guest j ≠ some g) :
    (a.assign i g).Sound := by
  intro j k x hj hk
  rw [guest_assign] at hj hk
  by_cases hij : i = j <;> by_cases hik : i = k
  · rw [← hij, hik]
  · rw [if_pos hij] at hj
    rw [if_neg hik] at hk
    cases hj
    exact absurd hk (hg k hik)
  · rw [if_neg hij] at hj
    rw [if_pos hik] at hk
    cases hk
    exact absurd hj (hg j hij)
  · rw [if_neg hij] at hj
    rw [if_neg hik] at hk
    exact h j k x hj hk

end SlotArena

end Dynarec
