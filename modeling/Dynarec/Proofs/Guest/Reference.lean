import Dynarec.Proofs.Guest.Agreement
import Dynarec.Proofs.Guest.Stores

/-!
# The reference machine

The reference takes one instruction after the other and takes no account of cycles
(`Machine.stride`).  Whatever a machine does step by step, a reference that agrees with it does as
well (`Machine.Retires.passes`).  `Machine.Calm` says that no instruction is overwritten before it
is fetched.
-/

namespace Dynarec

namespace Machine

variable {m m' g g' : Machine} {event : StepEvent} {n : Nat}

/-! ### What a step keeps -/

theorem gpr_zero_link (c : Core) (i : Instr) (pc : UInt32) : (c.link i pc).gpr 0 = c.gpr 0 := by
  unfold Core.link
  split
  · split <;> simp only [Core.gpr_zero_setGpr]
  · split <;> simp only [Core.gpr_zero_setGpr]
  · split <;> simp only [Core.gpr_zero_setGpr]
  · rfl

theorem sameFrame_link (c : Core) (i : Instr) (pc : UInt32) : c.SameFrame (c.link i pc) := by
  unfold Core.link
  split
  · split
    · exact c.sameFrame_setGpr _ _
    · exact .refl c
  · split
    · exact c.sameFrame_setGpr _ _
    · exact .refl c
  · split
    · exact c.sameFrame_setGpr _ _
    · exact .refl c
  · exact .refl c

theorem gpr_zero_perform {i : Instr} {pc : UInt32} {slot : Bool}
    (hok : perform i pc slot m = .ok event m') : m'.core.gpr 0 = m.core.gpr 0 := by
  rw [perform] at hok
  split at hok
  · cases hok
    cases slot
    · refine Eq.trans ?_ (gpr_zero_link m.core i pc)
      show (m.core.branch i pc).gpr 0 = _
      rw [Core.branch]
      split <;> rfl
    · exact gpr_zero_link m.core i pc
  · exact gpr_zero_execute hok

/-- **What a step that succeeds is made of.** -/
theorem exists_perform (hok : step m = .ok event m') :
    ∃ word m₁, m.memory.fetch? m.core.pc = some word ∧
      perform ⟨word⟩ m.core.pc m.core.inDelaySlot m = .ok event m₁ ∧
      m₁.core.downcount ≠ Int32.minValue ∧
      m' = ⟨m₁.core.retire m.core.pc m.core.inDelaySlot, m₁.memory⟩ := by
  rw [step] at hok
  dsimp only at hok
  cases hfetch : m.memory.fetch? m.core.pc with
  | none =>
    rw [hfetch] at hok
    cases hok
  | some word =>
    rw [hfetch] at hok
    dsimp only at hok
    cases hperform : perform ⟨word⟩ m.core.pc m.core.inDelaySlot m with
    | error e m₁ =>
      rw [hperform] at hok
      cases hok
    | ok event₁ m₁ =>
      rw [hperform] at hok
      dsimp only at hok
      split at hok
      · cases hok
      · rename_i hne
        cases hok
        exact ⟨word, m₁, rfl, hperform, fun heq => hne (beq_iff_eq.mpr heq), rfl⟩

/-- Register zero is never written. -/
theorem gpr_zero_step (hok : step m = .ok event m') : m'.core.gpr 0 = m.core.gpr 0 := by
  obtain ⟨word, m₁, -, hperform, -, rfl⟩ := exists_perform hok
  refine Eq.trans ?_ (gpr_zero_perform hperform)
  show (m₁.core.retire _ _).gpr 0 = _
  unfold Core.retire
  dsimp only
  split
  · rfl
  · split <;> rfl

/-- **What an instruction leaves alone**: requests for control, and the run state but at a breakpoint. -/
theorem control_perform {i : Instr} {pc : UInt32} {slot : Bool}
    (hok : perform i pc slot m = .ok event m') : m'.core.exitRequested = m.core.exitRequested ∧
      (m'.core.runState = m.core.runState ∨
        event = .breakpoint ∧ ∃ pc, m'.core.runState = .stopped pc) := by
  rw [perform] at hok
  split at hok
  · cases hok
    have hlink := sameFrame_link m.core i pc
    cases slot
    · show (m.core.branch i pc).exitRequested = _ ∧ ((m.core.branch i pc).runState = _ ∨ _)
      rw [Core.branch]
      split <;> exact ⟨hlink.exitRequested, .inl hlink.runState⟩
    · exact ⟨hlink.exitRequested, .inl hlink.runState⟩
  · by_cases hbreak : i.family = .breakpoint
    · rw [execute, hbreak] at hok
      cases hok
      exact ⟨rfl, .inr ⟨rfl, pc, rfl⟩⟩
    · have hframe := frame_execute hbreak hok
      exact ⟨congrArg Core.Frame.exitRequested hframe, .inl (congrArg Core.Frame.runState hframe)⟩

/-- A step leaves the same alone. -/
theorem control_step (hok : step m = .ok event m') : m'.core.exitRequested = m.core.exitRequested ∧
    (m'.core.runState = m.core.runState ∨
      event = .breakpoint ∧ ∃ pc, m'.core.runState = .stopped pc) := by
  obtain ⟨word, m₁, -, hperform, -, rfl⟩ := exists_perform hok
  have hretire : (m₁.core.retire m.core.pc m.core.inDelaySlot).exitRequested = m₁.core.exitRequested ∧
      (m₁.core.retire m.core.pc m.core.inDelaySlot).runState = m₁.core.runState := by
    unfold Core.retire
    dsimp only
    split
    · exact ⟨rfl, rfl⟩
    · split <;> exact ⟨rfl, rfl⟩
  obtain ⟨hrequest, hstate⟩ := control_perform hperform
  exact ⟨hretire.1.trans hrequest, hstate.imp hretire.2.trans fun ⟨hevent, pc, h⟩ =>
    ⟨hevent, pc, hretire.2.trans h⟩⟩

/-- **Every step takes a cycle.** -/
theorem downcount_step (hok : step m = .ok event m') :
    m'.core.downcount.toInt = m.core.downcount.toInt - 1 := by
  obtain ⟨word, m₁, -, hperform, hne, rfl⟩ := exists_perform hok
  have hsame := downcount_perform hperform
  rw [hsame] at hne
  show (m₁.core.retire _ _).downcount.toInt = _
  rw [downcount_retire, hsame, toInt_sub_one]
  have hle := m.core.downcount.le_toInt
  have hmin : m.core.downcount.toInt ≠ -2 ^ 31 := fun heq => hne (Int32.toInt_inj.mp heq)
  omega

theorem Retires.downcount (h : Retires n m m') :
    m'.core.downcount.toInt = m.core.downcount.toInt - n := by
  induction h with
  | zero => omega
  | succ h hstep ih =>
    have hdown := downcount_step hstep
    omega

theorem Retires.downcount_step {m'' : Machine} (h : Retires n m m') (hok : step m' = .ok event m'') :
    m''.core.downcount.toInt = m.core.downcount.toInt - (n + 1 : Nat) := by
  have hbefore := h.downcount
  have hlast := Machine.downcount_step hok
  omega

theorem Retires.zeroKept (h : Retires n m m') (hz : m.core.ZeroKept) : m'.core.ZeroKept := by
  induction h with
  | zero => exact hz
  | succ h hstep ih => exact (gpr_zero_step hstep).trans (ih hz)

theorem Retires.exitRequested (h : Retires n m m') : m'.core.exitRequested = m.core.exitRequested := by
  induction h with
  | zero => rfl
  | succ h hstep ih => exact (control_step hstep).1.trans ih

/-! ### Delay slots -/

theorem slot_link (c : Core) (i : Instr) (pc : UInt32) :
    (c.link i pc).inDelaySlot = c.inDelaySlot ∧ (c.link i pc).branchTarget = c.branchTarget :=
  ⟨(sameFrame_link c i pc).inDelaySlot, (sameFrame_link c i pc).branchTarget⟩

/-- **An instruction outside a delay slot** leaves none open, or opens one and reports nothing. -/
theorem Closed.perform {i : Instr} {pc : UInt32} (hm : m.Closed)
    (hok : Machine.perform i pc false m = .ok event m') :
    m'.Closed ∨ m'.core.inDelaySlot = true ∧ event = .normal := by
  rw [Machine.perform] at hok
  split at hok
  · cases hok
    obtain ⟨hslot, htarget⟩ := slot_link m.core i pc
    show Closed ⟨m.core.branch i pc, m.memory⟩ ∨ _
    by_cases hskips : ((m.core.branchOutcome i pc).likely && !(m.core.branchOutcome i pc).taken) = true
    · refine .inl ?_
      rw [Core.branch, if_pos hskips]
      exact ⟨hslot.trans hm.inDelaySlot, htarget.trans hm.branchTarget⟩
    · refine .inr ⟨?_, rfl⟩
      show (m.core.branch i pc).inDelaySlot = true
      rw [Core.branch, if_neg hskips]
  · by_cases hbreak : i.family = .breakpoint
    · rw [execute, hbreak] at hok
      cases hok
      exact .inl ⟨hm.inDelaySlot, hm.branchTarget⟩
    · exact .inl (hm.of_frame (frame_execute hbreak hok))

/-- Retiring an instruction outside a delay slot leaves the slot that it opened. -/
theorem slot_retire (c : Core) (pc : UInt32) :
    (c.retire pc false).inDelaySlot = c.inDelaySlot ∧
      (c.retire pc false).branchTarget = c.branchTarget := by
  unfold Core.retire
  dsimp only
  split
  · rename_i h
    cases h
  · split <;> exact ⟨rfl, rfl⟩

/-- **A step outside a delay slot** leaves none open, or opens one and reports nothing. -/
theorem Closed.step (hm : m.Closed) (hok : Machine.step m = .ok event m') :
    m'.Closed ∨ m'.core.inDelaySlot = true ∧ event = .normal := by
  obtain ⟨word, m₁, -, hperform, -, rfl⟩ := exists_perform hok
  rw [hm.inDelaySlot] at hperform ⊢
  have hretire := slot_retire m₁.core m.core.pc
  rcases hm.perform hperform with hclosed | ⟨hopen, hevent⟩
  · exact .inl ⟨hretire.1.trans hclosed.inDelaySlot, hretire.2.trans hclosed.branchTarget⟩
  · exact .inr ⟨hretire.1.trans hopen, hevent⟩

/-- A step in a delay slot leaves none open. -/
theorem closed_of_slot (hslot : m.core.inDelaySlot = true) (hok : step m = .ok event m') :
    m'.Closed := by
  obtain ⟨word, m₁, -, -, -, rfl⟩ := exists_perform hok
  rw [hslot]
  exact ⟨rfl, rfl⟩

/-- **In front of the last step of an instruction with its delay slot**: it is the first one too, or
the one in the slot. -/
def BeforeLast (n : Nat) (m : Machine) : Prop := n = 0 ∨ n = 1 ∧ m.core.inDelaySlot = true

/-- **An instruction with its delay slot** is one step, or two of which the first reports nothing. -/
theorem Closed.runOne (hm : m.Closed) (hok : Machine.runOne m = .ok event m') :
    m'.Closed ∧ ∃ n m₁, Retires n m m₁ ∧ BeforeLast n m₁ ∧ Machine.step m₁ = .ok event m' := by
  rw [Machine.runOne] at hok
  cases hstep : Machine.step m with
  | error e m₁ =>
    rw [hstep] at hok
    cases hok
  | ok event₁ m₁ =>
    rw [hstep] at hok
    dsimp only at hok
    split at hok
    · rename_i hslot
      rcases hm.step hstep with hclosed | ⟨-, rfl⟩
      · rw [hclosed.inDelaySlot] at hslot
        cases hslot
      · exact ⟨closed_of_slot hslot hok, 1, m₁, .succ (.zero m) hstep, .inr ⟨rfl, hslot⟩, hok⟩
    · rename_i hslot
      cases hok
      refine ⟨(hm.step hstep).resolve_right fun h => hslot h.1, 0, m, .zero m, .inl rfl, hstep⟩

/-- **Where an instruction with its delay slot cannot be done**: at once, or in the delay slot. -/
theorem Closed.runOne_trap (hm : m.Closed) {t : Trap}
    (htrap : Machine.runOne m = .error (.trap t) m') :
    ∃ n, Retires n m m' ∧ BeforeLast n m' ∧ m'.Fails (.trap t) := by
  rw [Machine.runOne] at htrap
  cases hstep : Machine.step m with
  | error e m₁ =>
    rw [hstep] at htrap
    cases htrap
    obtain rfl := eq_of_step_trap hstep
    exact ⟨0, .zero m', .inl rfl, m', hstep⟩
  | ok event₁ m₁ =>
    rw [hstep] at htrap
    dsimp only at htrap
    split at htrap
    · rename_i hslot
      obtain rfl := eq_of_step_trap htrap
      rcases hm.step hstep with hclosed | ⟨-, rfl⟩
      · rw [hclosed.inDelaySlot] at hslot
        cases hslot
      · exact ⟨1, .succ (.zero m) hstep, .inr ⟨rfl, hslot⟩, m', htrap⟩
    · cases htrap

/-! ### The reference -/

/-- The machine with no cycles left. -/
def spent (m : Machine) : Machine := m.clocked 0 m.core.exitRequested

/-- **One instruction of the reference**, which takes no account of cycles. -/
def stride : Stepping StepEvent := fun m => step m.spent

theorem Agrees.spent (a : Agrees m g) : Agrees m g.spent := a.trans (.of_clocked rfl (.refl _))

/-- **The reference does what a machine does** that agrees with it. -/
theorem Agrees.stride (a : Agrees m g) (hok : Machine.step m = .ok event m') :
    ∃ g', Machine.stride g = .ok event g' ∧ Agrees m' g' :=
  a.spent.step (show (0 : Int32) ≠ Int32.minValue by decide) hok

/-- **Instructions of the reference** that report no event. -/
inductive Passes : Nat → Machine → Machine → Prop
  | zero (g : Machine) : Passes 0 g g
  | succ {n : Nat} {g g' g'' : Machine} (h : Passes n g g')
      (next : stride g' = .ok .normal g'') : Passes (n + 1) g g''

theorem Passes.trans {k : Nat} {g'' : Machine} (h : Passes n g g') (h' : Passes k g' g'') :
    Passes (n + k) g g'' := by
  induction h' with
  | zero => exact h
  | succ _ hstep ih => exact .succ (ih h) hstep

theorem Passes.runState (h : Passes n g g') : g'.core.runState = g.core.runState := by
  induction h with
  | zero => rfl
  | succ _ next ih => exact ((control_step next).2.resolve_right fun h => by cases h.1).trans ih

/-- **What a machine retires the reference passes.** -/
theorem Retires.passes (h : Retires n m m') (a : Agrees m g) : ∃ g', Passes n g g' ∧ Agrees m' g' := by
  induction h with
  | zero => exact ⟨g, .zero g, a⟩
  | succ _ hstep ih =>
    obtain ⟨g₁, hpasses, a₁⟩ := ih a
    obtain ⟨g₂, hstride, a₂⟩ := a₁.stride hstep
    exact ⟨g₂, .succ hpasses hstride, a₂⟩

/-! ### Instructions that stay as they are -/

/-- **The bytes of the next instruction** are those of another memory. -/
def Fetches (m : Machine) (memory : Memory) : Prop :=
  ∀ k < 4, m.memory.read8 (m.core.pc + UInt32.ofNat k) = memory.read8 (m.core.pc + UInt32.ofNat k)

/-- **Nothing that the reference fetches was overwritten by it before**, up to the next event. -/
def Calm (g : Machine) : Prop :=
  ∀ i g₁, Passes i g g₁ → ∀ j g₂, Passes j g₁ g₂ → g₂.Fetches g₁.memory

/-- **Nothing that a machine fetches was overwritten by it before**, up to the next event. -/
def Steady (m : Machine) : Prop :=
  ∀ i m₁, Retires i m m₁ → ∀ j m₂, Retires j m₁ m₂ → m₂.Fetches m₁.memory

theorem Steady.retires (x : Steady m) (h : Retires n m m') : Steady m' :=
  fun i _ h₁ j _ h₂ => x (n + i) _ (h.trans h₁) j _ h₂

theorem Calm.passes (x : Calm g) (h : Passes n g g') : Calm g' :=
  fun i _ h₁ j _ h₂ => x (n + i) _ (h.trans h₁) j _ h₂

/-- **A machine that agrees with a calm reference is steady.** -/
theorem Calm.steady (x : Calm g) (a : Agrees m g) : Steady m := by
  intro i m₁ h₁ j m₂ h₂ k hk
  obtain ⟨g₁, hpasses₁, a₁⟩ := h₁.passes a
  obtain ⟨g₂, hpasses₂, a₂⟩ := h₂.passes a₁
  have hread : ∀ {m g : Machine}, Agrees m g → ∀ b, g.memory.read8 b = m.memory.read8 b :=
    fun a b => a.memory.read b 1
  have hcalm := x i g₁ hpasses₁ j g₂ hpasses₂ k hk
  rw [a₂.pc_eq, hread a₂, hread a₁] at hcalm
  exact hcalm

end Machine

end Dynarec
