import Dynarec.Guest.Interpreter

/-!
# Reading back what was written to a core

The writers of a core are `setGpr`, `setReg`, `setControl` and `setElement`.  Each has one lemma for
every reader.  `SameFrame` says that two cores agree on everything that instructions other than
branches and stops leave alone, the program counter apart.
-/

namespace Dynarec

namespace Core

variable (c : Core)

/-- **Two cores agree outside their registers**, the program counter apart. -/
structure SameFrame (c c' : Core) : Prop where
  downcount : c'.downcount = c.downcount
  runState : c'.runState = c.runState
  inDelaySlot : c'.inDelaySlot = c.inDelaySlot
  branchTarget : c'.branchTarget = c.branchTarget
  exitRequested : c'.exitRequested = c.exitRequested

namespace SameFrame

variable {c c' c'' : Core}

theorem refl (c : Core) : SameFrame c c := ⟨rfl, rfl, rfl, rfl, rfl⟩

theorem symm (h : SameFrame c c') : SameFrame c' c :=
  ⟨h.1.symm, h.2.symm, h.3.symm, h.4.symm, h.5.symm⟩

theorem trans (h : SameFrame c c') (h' : SameFrame c' c'') : SameFrame c c'' :=
  ⟨h'.1.trans h.1, h'.2.trans h.2, h'.3.trans h.3, h'.4.trans h.4, h'.5.trans h.5⟩

end SameFrame

/-! ### General registers -/

theorem gpr_setGpr (n k : Fin 32) (v : UInt32) :
    (c.setGpr n v).gpr k = if n ≠ 0 ∧ n = k then v else c.gpr k := by
  by_cases hn : n = 0
  · rw [setGpr, if_pos hn, if_neg (fun h => h.1 hn)]
  · rw [setGpr, if_neg hn, gpr, Fin.getElem_fin, Vector.getElem_set]
    by_cases hk : n = k
    · rw [if_pos (congrArg Fin.val hk), if_pos ⟨hn, hk⟩]
    · rw [if_neg (fun h => hk (Fin.ext h)), if_neg (fun h => hk h.2)]
      rfl

@[simp] theorem gpr_zero_setGpr (n : Fin 32) (v : UInt32) : (c.setGpr n v).gpr 0 = c.gpr 0 := by
  rw [gpr_setGpr, if_neg]
  rintro ⟨hn, rfl⟩
  exact hn rfl

@[simp] theorem setGpr_zero (v : UInt32) : c.setGpr 0 v = c := if_pos rfl

theorem setGpr_gpr_self (n : Fin 32) : c.setGpr n (c.gpr n) = c := by
  have hgprs : c.gprs.set n (c.gpr n) = c.gprs := by
    refine Vector.ext fun i hi => ?_
    rw [Vector.getElem_set]
    by_cases hn : n.val = i
    · rw [if_pos hn]
      subst hn
      rfl
    · rw [if_neg hn]
  rw [setGpr, hgprs, ite_self]

@[simp] theorem hi_setGpr (n : Fin 32) (v : UInt32) : (c.setGpr n v).hi = c.hi := by
  rw [setGpr]
  split <;> rfl

@[simp] theorem lo_setGpr (n : Fin 32) (v : UInt32) : (c.setGpr n v).lo = c.lo := by
  rw [setGpr]
  split <;> rfl

@[simp] theorem elements_setGpr (n : Fin 32) (v : UInt32) :
    (c.setGpr n v).elements = c.elements := by
  rw [setGpr]
  split <;> rfl

@[simp] theorem controls_setGpr (n : Fin 32) (v : UInt32) :
    (c.setGpr n v).controls = c.controls := by
  rw [setGpr]
  split <;> rfl

@[simp] theorem control_setGpr (n : Fin 32) (v : UInt32) (k : Fin 16) :
    (c.setGpr n v).control k = c.control k := by
  rw [control, controls_setGpr]
  rfl

theorem sameFrame_setGpr (n : Fin 32) (v : UInt32) : SameFrame c (c.setGpr n v) := by
  rw [setGpr]
  split <;> exact ⟨rfl, rfl, rfl, rfl, rfl⟩

/-! ### Control registers and elements -/

theorem controls_setControl (i : Fin 16) (v : UInt32) (k : Fin 16) :
    (c.setControl i v).control k = if i = k then v else c.control k := by
  show (c.controls.set i v)[k] = _
  rw [Fin.getElem_fin, Vector.getElem_set]
  by_cases hk : i = k
  · rw [if_pos (congrArg Fin.val hk), if_pos hk]
  · rw [if_neg (fun h => hk (Fin.ext h)), if_neg hk]
    rfl

theorem element_setElement (e e' : Element) (x : Single) :
    (c.setElement e x).element e' = if e = e' then x else c.element e' := by
  show (c.elements.set e x)[e'] = _
  rw [Fin.getElem_fin, Vector.getElem_set]
  by_cases he : e = e'
  · rw [if_pos (congrArg Fin.val he), if_pos he]
  · rw [if_neg (fun h => he (Fin.ext h)), if_neg he]
    rfl

theorem sameFrame_setControl (i : Fin 16) (v : UInt32) : SameFrame c (c.setControl i v) :=
  ⟨rfl, rfl, rfl, rfl, rfl⟩

theorem sameFrame_setElement (e : Element) (x : Single) : SameFrame c (c.setElement e x) :=
  ⟨rfl, rfl, rfl, rfl, rfl⟩

/-! ### Scalar registers -/

/-- Register zero holds zero. -/
def ZeroKept (c : Core) : Prop := c.gpr 0 = 0

variable {c}

theorem reg_gpr (h : c.ZeroKept) (n : Fin 32) : c.reg (.gpr n) = c.gpr n := by
  rw [reg]
  by_cases hn : n = 0
  · rw [if_pos hn, hn]
    exact h.symm
  · rw [if_neg hn]
    rfl

variable (c)

theorem reg_of_isZero {r : GuestReg} (hr : r.isZero = true) : c.reg r = 0 := by
  cases r with
  | gpr n => exact if_pos (of_decide_eq_true hr)
  | hi => cases hr
  | lo => cases hr
  | condition => cases hr

theorem setReg_of_isZero {r : GuestReg} (hr : r.isZero = true) (v : UInt32) : c.setReg r v = c := by
  cases r with
  | gpr n => exact if_pos (of_decide_eq_true hr)
  | hi => cases hr
  | lo => cases hr
  | condition => cases hr

theorem reg_setReg {r : GuestReg} (hr : r.isZero = false) (v : UInt32) (r' : GuestReg) :
    (c.setReg r v).reg r' = if r = r' then v else c.reg r' := by
  cases r with
  | gpr n =>
    have hn : n ≠ 0 := of_decide_eq_false hr
    cases r' with
    | gpr k =>
      rw [setReg, reg, reg]
      by_cases hk : k = 0
      · rw [if_pos hk, if_pos hk, if_neg]
        intro heq
        cases heq
        exact hn hk
      · rw [if_neg hk, if_neg hk]
        have hg := c.gpr_setGpr n k v
        rw [gpr, gpr] at hg
        rw [hg]
        by_cases hnk : n = k
        · rw [if_pos ⟨hn, hnk⟩, if_pos (by rw [hnk])]
        · rw [if_neg (fun h => hnk h.2), if_neg (fun h => hnk (by cases h; rfl))]
    | hi => simp [setReg, reg]
    | lo => simp [setReg, reg]
    | condition => simp [setReg, reg, condition]
  | hi => cases r' <;> simp [setReg, reg, condition, control]
  | lo => cases r' <;> simp [setReg, reg, condition, control]
  | condition =>
    cases r' with
    | gpr k => rfl
    | hi => rfl
    | lo => rfl
    | condition =>
      show (c.setControl conditionControl v).control conditionControl = _
      rw [controls_setControl, if_pos rfl, if_pos rfl]

@[simp] theorem elements_setReg (r : GuestReg) (v : UInt32) :
    (c.setReg r v).elements = c.elements := by
  cases r <;> simp [setReg, setControl]

theorem controls_setReg {r : GuestReg} {k : Fin 16} (hk : k ≠ conditionControl) (v : UInt32) :
    (c.setReg r v).control k = c.control k := by
  cases r with
  | gpr n => exact c.control_setGpr n v k
  | hi => rfl
  | lo => rfl
  | condition => rw [setReg, controls_setControl, if_neg (Ne.symm hk)]

theorem sameFrame_setReg (r : GuestReg) (v : UInt32) : SameFrame c (c.setReg r v) := by
  cases r with
  | gpr n => exact c.sameFrame_setGpr n v
  | hi => exact ⟨rfl, rfl, rfl, rfl, rfl⟩
  | lo => exact ⟨rfl, rfl, rfl, rfl, rfl⟩
  | condition => exact ⟨rfl, rfl, rfl, rfl, rfl⟩

theorem gpr_zero_setReg (r : GuestReg) (v : UInt32) : (c.setReg r v).gpr 0 = c.gpr 0 := by
  cases r with
  | gpr n => exact c.gpr_zero_setGpr n v
  | hi => rfl
  | lo => rfl
  | condition => rfl

theorem reg_setElement (e : Element) (x : Single) (r : GuestReg) :
    (c.setElement e x).reg r = c.reg r := by
  cases r <;> rfl

theorem reg_setControl {k : Fin 16} (hk : k ≠ conditionControl) (v : UInt32) (r : GuestReg) :
    (c.setControl k v).reg r = c.reg r := by
  cases r with
  | gpr n => rfl
  | hi => rfl
  | lo => rfl
  | condition =>
    show (c.setControl k v).control conditionControl = _
    rw [controls_setControl, if_neg hk]
    rfl

/-! ### Pending modifiers -/

theorem control_ne_condition (slot : ModifierSlot) :
    slot.control ≠ conditionControl := by
  cases slot <;> decide

theorem control_inj {slot slot' : ModifierSlot}
    (heq : slot.control = slot'.control) : slot = slot' := by
  revert heq
  cases slot <;> cases slot' <;> decide

/-- The control registers below the condition word hold the modifiers. -/
theorem exists_control {k : Fin 16} (hk : k ≠ conditionControl) (hlt : k.val < 4) :
    ∃ slot : ModifierSlot, slot.control = k := by
  have hne : k.val ≠ 3 := fun heq => hk (Fin.ext heq)
  have hval : k.val = 0 ∨ k.val = 1 ∨ k.val = 2 := by omega
  rcases hval with h0 | h1 | h2
  · exact ⟨.source, Fin.ext h0.symm⟩
  · exact ⟨.target, Fin.ext h1.symm⟩
  · exact ⟨.destination, Fin.ext h2.symm⟩

theorem modifier_setModifier (slot slot' : ModifierSlot) (v : UInt32) :
    (c.setModifier slot v).modifier slot' = if slot = slot' then v else c.modifier slot' := by
  rw [setModifier, modifier, controls_setControl]
  by_cases hs : slot = slot'
  · rw [if_pos hs, if_pos (by rw [hs])]
  · rw [if_neg hs, if_neg (fun heq => hs (control_inj heq))]
    rfl

theorem modifier_clearModifiers (slot : ModifierSlot) :
    c.clearModifiers.modifier slot = slot.identity := by
  show (((c.setModifier .source _).setModifier .target _).setModifier .destination _).modifier slot
    = _
  rw [modifier_setModifier, modifier_setModifier, modifier_setModifier]
  cases slot <;> rfl

/-- **A core is given by what can be read from it.** -/
theorem ext_readers {c c' : Core} (hreg : ∀ r, c.reg r = c'.reg r) (hzero : c.gpr 0 = c'.gpr 0)
    (helement : ∀ e, c.element e = c'.element e)
    (hcontrol : ∀ k, k ≠ conditionControl → c.control k = c'.control k)
    (hframe : SameFrame c' c) (hpc : c.pc = c'.pc) : c = c' := by
  have hgprs : c.gprs = c'.gprs := by
    refine Vector.ext fun i hi => ?_
    by_cases h0 : i = 0
    · subst h0
      exact hzero
    · have hr := hreg (.gpr ⟨i, hi⟩)
      have hne : (⟨i, hi⟩ : Fin 32) ≠ 0 := fun h => h0 (congrArg Fin.val h)
      rw [reg, reg, if_neg hne, if_neg hne] at hr
      exact hr
  have helements : c.elements = c'.elements := Vector.ext fun i hi => helement ⟨i, hi⟩
  have hall : ∀ k : Fin 16, c.control k = c'.control k := fun k => by
    by_cases hk : k = conditionControl
    · subst hk
      exact hreg .condition
    · exact hcontrol k hk
  have hcontrols : c.controls = c'.controls := Vector.ext fun i hi => hall ⟨i, hi⟩
  have hhi : c.hi = c'.hi := hreg .hi
  have hlo : c.lo = c'.lo := hreg .lo
  obtain ⟨h1, h2, h3, h4, h5⟩ := hframe
  cases c
  cases c'
  simp only at hgprs helements hcontrols hhi hlo h1 h2 h3 h4 h5 hpc
  subst hgprs helements hcontrols hhi hlo h1 h2 h3 h4 h5 hpc
  rfl

end Core

end Dynarec
