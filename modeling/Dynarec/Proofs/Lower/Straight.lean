import Dynarec.Proofs.Lower.Rules

/-!
# Instructions are lowered to straight code

A tame step emits straight code, and so does the rule of every instruction that does not end a block
(`straight_plain`), whatever the caches hold.
-/

namespace Dynarec

namespace Lowering

variable {α : Type} {s : Setting}

/-- **A tame step only emits straight code.** -/
theorem straight_of_handsOut {Γ M : Set HostCell} {act : Lowering α} {n : Nat}
    {E D : α → Set HostCell} {P : α → Prop} (hact : HandsOut Γ M act n E D P) : Straight s act := by
  obtain ⟨plan, hplan, hkeeps⟩ := hact
  intro b x b' hok
  have hw := hkeeps b.context Set.univ (Set.subset_univ _)
    ((Set.subset_univ _).trans Set.subset_union_left)
  rw [hplan s b] at hok
  cases hwork : plan b.context with
  | error e =>
    rw [hwork] at hok
    cases hok
  | ok w =>
    rw [hwork] at hok hw
    cases hok
    exact ⟨w.code, ⟨rfl, rfl, hw.2.inline⟩, rfl⟩

/-! ### Actions -/

theorem straight_bindReg (r : GuestReg) : Straight s (Lowering.bind r) :=
  straight_of_handsOut (handsOut_bindReg r)

theorem straight_bindForWrite (r : GuestReg) : Straight s (bindForWrite r) :=
  straight_of_handsOut (handsOut_bindForWrite r)

theorem straight_bindGpr (n : Fin 32) : Straight s (bindGpr n) := straight_bindReg _

theorem straight_bindGprForWrite (n : Fin 32) : Straight s (bindGprForWrite n) :=
  straight_bindForWrite _

theorem straight_updateModifiers (f : ModifierTracker → ModifierTracker) :
    Straight s (updateModifiers f) :=
  straight_modify (fun _ => rfl) (fun _ => rfl) (fun _ => rfl)

theorem straight_ite {c : Prop} [Decidable c] {x y : Lowering α} (hx : Straight s x)
    (hy : Straight s y) : Straight s (if c then x else y) := by
  split
  · exact hx
  · exact hy

theorem straight_move (rd rs : HostReg) : Straight s (move rd rs) :=
  straight_ite (straight_pure _) (straight_emit trivial)

/-- **The lowering of an instruction that does not end a block is straight code.** -/
theorem straight_plain (i : Instr) (pc : UInt32) : Straight s (plain i pc) :=
  straight_of_handsOut (tameRule_plain i pc)

end Lowering

end Dynarec
