import Dynarec.Proofs.Guest.Dependence
import Dynarec.Proofs.Lower.Terminators

/-!
# The delay-slot analysis

Whether a branch is compared in front of its delay slot or behind it, and whether the target of an
indirect jump is copied, is decided by the usage of the instruction in the slot.  The usage is right
about every instruction that may stand there, so both decisions are.
-/

namespace Dynarec.Lowering

/-- **The delay-slot analysis is sound.**  A scalar register that the usage of an instruction does
not list as written keeps its value; what the instruction writes depends on scalar registers only
through those that are listed as read.  So a branch that is compared behind its slot, or not at all,
is taken there if it is taken in front of its link; and the target of an indirect jump that is not
copied is still in its register. -/
theorem delaySlot_sound (slot : Instr) (hslot : slot.family.isTerminator = false) :
    (∀ pc (m m' : Machine) event, m.core.ZeroKept → Machine.execute slot pc m = .ok event m' →
      (∀ r, slot.usage.writesReg r = false → m'.core.reg r = m.core.reg r) ∧
      ∀ g, m.core.AgreesOn slot.usage.reads g.core → m.memory.Alike g.memory →
        ∃ g', Machine.execute slot pc g = .ok event g' ∧
          m'.core.AgreesOn slot.usage.writes g'.core ∧ m'.memory.Alike g'.memory ∧
          (g.memory = m.memory → g'.memory = m'.memory)) ∧
    (∀ (i : Instr) pc (g g' : Machine),
      i.family = .branch ∨ i.family = .branchSign ∨ i.family = .vectorBranch →
      i.isAlwaysTaken = true ∨ compareBeforeSlot i slot = false → g.core.ZeroKept →
      Machine.execute slot (pc + 4) (g.linked i pc) = .ok .normal g' →
      (g'.core.branchOutcome i pc).taken = (g.core.branchOutcome i pc).taken) ∧
    (∀ (i : Instr) pc (g g' : Machine), i.family = .jumpRegister → targetChanges i slot = false →
      g.core.ZeroKept →
      Machine.execute slot (pc + 4) (g.linked i pc) = .ok .normal g' →
      g'.core.gpr i.rs = g.core.gpr i.rs) := by
  refine ⟨fun pc m m' event _ hok => ⟨fun r hr => Machine.reg_execute hr hok,
    fun g h hmemory => Machine.execute_agreesOn_alike hslot hmemory h hok⟩, ?_, ?_⟩
  · intro i pc g g' hfam hfirst hz hok
    rcases hfirst with halways | hafter
    · rw [taken_of_isAlwaysTaken halways, taken_of_isAlwaysTaken halways]
    · exact taken_of_compareAfter hfam hafter hz hok
  · intro i pc g g' hfam hchanges hz hok
    have hzero : g'.core.ZeroKept := by
      have hlinked := Machine.gpr_zero_execute hok
      rw [link_jumpRegister hfam] at hlinked
      exact hlinked.trans ((Core.gpr_zero_setGpr _ _ _).trans hz)
    exact gpr_of_not_targetChanges hfam hchanges hz hzero hok

/-- The machine of the example below: all registers are zero. -/
def idleMachine : Machine := ⟨Core.start 0, Memory.create 0 0⟩

/-- A slot that adds one to a register and writes another one.  The branch and the jump in front of
it look at the first; a third register makes no difference. -/
theorem delaySlot_sound_increment :
    ∃ g₁ g₂ g₃,
      Machine.execute ⟨0x25090001⟩ 0x1004 (idleMachine.linked ⟨0x15000003⟩ 0x1000) =
        .ok .normal g₁ ∧
      (g₁.core.branchOutcome ⟨0x15000003⟩ 0x1000).taken = false ∧
      Machine.execute ⟨0x25090001⟩ 0x1004 (idleMachine.linked ⟨0x01000008⟩ 0x1000) =
        .ok .normal g₂ ∧ g₂.core.gpr 8 = 0 ∧
      Machine.execute ⟨0x25090001⟩ 0x1004 (idleMachine.mapCore (·.setGpr 10 7)) =
        .ok .normal g₃ ∧ g₃.core.reg (.gpr 9) = 1 ∧ g₃.core.reg (.gpr 8) = 0 := by
  obtain ⟨husage, hbranch, hjump⟩ := delaySlot_sound ⟨0x25090001⟩ (by decide)
  have hz : idleMachine.core.ZeroKept := rfl
  obtain ⟨g₁, h₁⟩ : ∃ g₁, Machine.execute ⟨0x25090001⟩ 0x1004
    (idleMachine.linked ⟨0x15000003⟩ 0x1000) = .ok .normal g₁ := ⟨_, rfl⟩
  obtain ⟨g₂, h₂⟩ : ∃ g₂, Machine.execute ⟨0x25090001⟩ 0x1004
    (idleMachine.linked ⟨0x01000008⟩ 0x1000) = .ok .normal g₂ := ⟨_, rfl⟩
  obtain ⟨m', hm, hsum⟩ : ∃ m', Machine.execute ⟨0x25090001⟩ 0x1004 idleMachine =
    .ok .normal m' ∧ m'.core.reg (.gpr 9) = 1 := ⟨_, rfl, rfl⟩
  obtain ⟨-, hreads⟩ := husage 0x1004 _ _ _ hz hm
  have hagrees : idleMachine.core.AgreesOn (Instr.usage ⟨0x25090001⟩).reads
      (idleMachine.mapCore (·.setGpr 10 7)).core :=
    ⟨rfl, rfl, fun r hr => by
      rw [List.mem_singleton.mp (show r ∈ [GuestReg.gpr 8] from hr)]
      rfl, rfl, fun _ _ => rfl⟩
  obtain ⟨g₃, h₃, hsame, -⟩ := hreads _ hagrees (.refl _)
  refine ⟨g₁, g₂, g₃, h₁, ?_, h₂, ?_, h₃, ?_, ?_⟩
  · exact (hbranch _ _ _ _ (.inl (by decide)) (.inr (by decide)) hz h₁).trans (by decide)
  · exact (hjump _ _ _ _ (by decide) (by decide) hz h₂).trans (by decide)
  · exact (hsame.reg (.gpr 9) (by decide)).trans hsum
  · exact (husage 0x1004 _ _ _ hagrees.zero' h₃).1 (.gpr 8) (by decide)

end Dynarec.Lowering
