import Dynarec.Proofs.Guest.Agreement

/-!
# What the effect of an instruction reads

The usage of an instruction lists the scalar registers that its effect depends on.  Two cores that
agree on these, on the vector file and on the control registers agree afterwards on what the
instruction writes (`Machine.execute_agreesOn`); the condition word is a scalar register here.  The
relation `Core.AgreesOn` is kept by every writer of a core, and each family is made of a few
writers.
-/

namespace Dynarec

namespace Core

/-- **Two cores agree on some scalar registers**, on the vector file and on all control registers
but the condition word.  Register zero holds zero in both. -/
structure AgreesOn (regs : List GuestReg) (c c' : Core) : Prop where
  zero : c.ZeroKept
  zero' : c'.ZeroKept
  reg : ∀ r ∈ regs, c'.reg r = c.reg r
  elements : c'.elements = c.elements
  control : ∀ k, k ≠ conditionControl → c'.control k = c.control k

namespace AgreesOn

variable {regs regs' : List GuestReg} {c c' : Core}

theorem mono (h : AgreesOn regs c c') (hsub : regs' ⊆ regs) : AgreesOn regs' c c' :=
  ⟨h.zero, h.zero', fun r hr => h.reg r (hsub hr), h.elements, h.control⟩

/-! ### Readers -/

theorem gpr (h : AgreesOn regs c c') {n : Fin 32} (hn : .gpr n ∈ regs) : c'.gpr n = c.gpr n := by
  have hr := h.reg _ hn
  rwa [reg_gpr h.zero, reg_gpr h.zero'] at hr

theorem hi (h : AgreesOn regs c c') (hn : .hi ∈ regs) : c'.hi = c.hi := h.reg .hi hn

theorem lo (h : AgreesOn regs c c') (hn : .lo ∈ regs) : c'.lo = c.lo := h.reg .lo hn

theorem condition (h : AgreesOn regs c c') (hn : .condition ∈ regs) :
    c'.condition = c.condition := h.reg .condition hn

theorem modifier (h : AgreesOn regs c c') (slot : ModifierSlot) :
    c'.modifier slot = c.modifier slot := h.control _ (control_ne_condition slot)

theorem element (h : AgreesOn regs c c') (e : Element) : c'.element e = c.element e := by
  rw [Core.element, Core.element, h.elements]

theorem readOperand (h : AgreesOn regs c c') (size : VectorSize) (reg : UInt8)
    (slot : ModifierSlot) : c'.readOperand size reg slot = c.readOperand size reg slot := by
  have hvector : c'.readVector size reg = c.readVector size reg :=
    List.map_congr_left fun e _ => h.element e
  rw [Core.readOperand, Core.readOperand, h.modifier, hvector]

/-! ### Writers -/

/-- The same value is written to both. -/
theorem setReg (h : AgreesOn regs c c') (r : GuestReg) (v : UInt32) :
    AgreesOn (r :: regs) (c.setReg r v) (c'.setReg r v) where
  zero := (c.gpr_zero_setReg r v).trans h.zero
  zero' := (c'.gpr_zero_setReg r v).trans h.zero'
  reg r' hr' := by
    cases hz : r.isZero with
    | true =>
      rw [c.setReg_of_isZero hz, c'.setReg_of_isZero hz]
      rcases List.mem_cons.mp hr' with rfl | hr'
      · rw [c.reg_of_isZero hz, c'.reg_of_isZero hz]
      · exact h.reg r' hr'
    | false =>
      rw [c.reg_setReg hz, c'.reg_setReg hz]
      split
      · rfl
      · rename_i hne
        exact h.reg r' ((List.mem_cons.mp hr').resolve_left (Ne.symm hne))
  elements := by rw [elements_setReg, elements_setReg, h.elements]
  control k hk := by rw [controls_setReg _ hk, controls_setReg _ hk, h.control k hk]

theorem setGpr (h : AgreesOn regs c c') (n : Fin 32) (v : UInt32) :
    AgreesOn (.gpr n :: regs) (c.setGpr n v) (c'.setGpr n v) := h.setReg (.gpr n) v

theorem setProduct (h : AgreesOn regs c c') (v : UInt64) :
    AgreesOn (.lo :: .hi :: regs) (c.setProduct v) (c'.setProduct v) :=
  (h.setReg .hi (v >>> 32).toUInt32).setReg .lo v.toUInt32

theorem setElement (h : AgreesOn regs c c') (e : Dynarec.Element) (x : Single) :
    AgreesOn regs (c.setElement e x) (c'.setElement e x) where
  zero := h.zero
  zero' := h.zero'
  reg r hr := by rw [reg_setElement, reg_setElement, h.reg r hr]
  elements := by
    show c'.elements.set e x = c.elements.set e x
    rw [h.elements]
  control := h.control

theorem setControl (h : AgreesOn regs c c') {k : Fin 16} (hk : k ≠ conditionControl) (v : UInt32) :
    AgreesOn regs (c.setControl k v) (c'.setControl k v) where
  zero := h.zero
  zero' := h.zero'
  reg r hr := by rw [reg_setControl _ hk, reg_setControl _ hk, h.reg r hr]
  elements := h.elements
  control k' hk' := by rw [controls_setControl, controls_setControl, h.control k' hk']

theorem setModifier (h : AgreesOn regs c c') (slot : ModifierSlot) (v : UInt32) :
    AgreesOn regs (c.setModifier slot v) (c'.setModifier slot v) :=
  h.setControl (control_ne_condition slot) v

theorem clearModifiers (h : AgreesOn regs c c') :
    AgreesOn regs c.clearModifiers c'.clearModifiers :=
  ((h.setModifier .source _).setModifier .target _).setModifier .destination _

theorem writeElements (h : AgreesOn regs c c') (mask : Nat → Bool) (lane : Nat)
    (es : List Dynarec.Element) (xs : List Single) :
    AgreesOn regs (c.writeElements mask lane es xs) (c'.writeElements mask lane es xs) := by
  induction es generalizing c c' lane xs with
  | nil => exact h
  | cons e es ih =>
    cases xs with
    | nil => exact h
    | cons x xs =>
      rw [Core.writeElements, Core.writeElements]
      refine ih ?_ (lane + 1) xs
      split
      · exact h
      · exact h.setElement e x

theorem writeVector (h : AgreesOn regs c c') (size : VectorSize) (reg : UInt8)
    (result : List Single) :
    AgreesOn regs (c.writeVector size reg result) (c'.writeVector size reg result) := by
  rw [Core.writeVector, Core.writeVector, h.modifier]
  exact h.writeElements _ 0 _ _

end AgreesOn

/-! ### Each family -/

variable {c c' : Core} {i : Instr}

/-- Writes to register zero are left out of a usage. -/
theorem AgreesOn.writes {regs reads writes : List GuestReg} (h : AgreesOn regs c c')
    (hsub : writes ⊆ regs) : AgreesOn (Usage.of reads writes).writes c c' :=
  h.mono fun _ hr => hsub (List.mem_filter.mp hr).1

theorem AgreesOn.setRd {regs reads : List GuestReg} (h : AgreesOn regs c c') (n : Fin 32)
    (v : UInt32) : AgreesOn (Usage.of reads [.gpr n]).writes (c.setGpr n v) (c'.setGpr n v) :=
  (h.setGpr n v).writes (List.cons_subset_cons _ (List.nil_subset _))

/-- The function codes of the shifts. -/
theorem funct_of_shift (hfam : i.family = .shift) :
    i.funct.toNat ∈ [0x00, 0x02, 0x03, 0x04, 0x06, 0x07] := by
  unfold Instr.family at hfam
  split at hfam <;> try cases hfam
  all_goals
    try simp only [Instr.familySpecial, Instr.familySign, Instr.familyVectorControl, Instr.familyBits,
      Instr.familyUnary] at hfam
    repeat' split at hfam
  all_goals first | (rename_i heq; rw [heq]; decide) | cases hfam

/-- Whether a shift goes by a register is one bit of its function code. -/
theorem bit_two_iff (i : Instr) : i.bit 2 = true ↔ i.funct.toNat / 4 % 2 = 1 := by
  have hbits : (i.bits 2 1).toNat = i.word.toNat / 4 % 2 := by
    rw [Instr.bits, UInt32.toNat_and, UInt32.toNat_shiftRight]
    show i.word.toNat >>> 2 &&& 1 = _
    rw [Nat.and_one_is_mod, Nat.shiftRight_eq_div_pow]
  have hfunct : i.funct.toNat = i.word.toNat % 64 := by
    rw [Instr.funct, Instr.bits, UInt32.toNat_and, UInt32.toNat_shiftRight]
    exact Nat.and_two_pow_sub_one_eq_mod i.word.toNat 6
  have hne : i.bit 2 = true ↔ (i.bits 2 1).toNat ≠ 0 := by
    rw [Instr.bit, bne_iff_ne, ne_eq, ← UInt32.toNat_inj]
    rfl
  rw [hne, hbits, hfunct]
  omega

theorem usage_shift (hfam : i.family = .shift) :
    GuestReg.gpr i.rt ∈ i.usage.reads ∧ (i.bit 2 = true → GuestReg.gpr i.rs ∈ i.usage.reads) ∧
      ∃ reads, i.usage.writes = (Usage.of reads [.gpr i.rd]).writes := by
  have hfunct := funct_of_shift hfam
  rw [Instr.usage, hfam]
  dsimp only
  split
  iterate 3
    exact ⟨List.mem_cons_of_mem _ List.mem_cons_self, fun _ => List.mem_cons_self, _, rfl⟩
  · rename_i h4 h6 h7
    refine ⟨List.mem_cons_self, fun hbit => ?_, _, rfl⟩
    rw [bit_two_iff] at hbit
    simp only [List.mem_cons, List.not_mem_nil, or_false] at hfunct
    rcases hfunct with heq | heq | heq | heq | heq | heq
    iterate 3
      rw [heq] at hbit
      exact absurd hbit (by decide)
    · exact absurd heq h4
    · exact absurd heq h6
    · exact absurd heq h7

theorem executeShift_agreesOn (hfam : i.family = .shift) (h : AgreesOn i.usage.reads c c') :
    AgreesOn i.usage.writes (c.executeShift i) (c'.executeShift i) := by
  obtain ⟨hrt, hrs, reads, hwrites⟩ := usage_shift hfam
  rw [hwrites, executeShift, executeShift, h.gpr hrt]
  cases hbit : i.bit 2 with
  | true =>
    rw [h.gpr (hrs hbit)]
    exact h.setRd _ _
  | false => exact h.setRd _ _

theorem executeArithmetic_agreesOn (hfam : i.family = .arithmetic)
    (h : AgreesOn i.usage.reads c c') :
    AgreesOn i.usage.writes (c.executeArithmetic i) (c'.executeArithmetic i) := by
  rw [Instr.usage, hfam] at h ⊢
  have hrs : c'.gpr i.rs = c.gpr i.rs := h.gpr (by simp [Usage.of])
  have hrt : c'.gpr i.rt = c.gpr i.rt := h.gpr (by simp [Usage.of])
  -- a conditional move that does not move leaves the destination, which counts as read
  have hkept : AgreesOn (Usage.of [.gpr i.rs, .gpr i.rt, .gpr i.rd] [.gpr i.rd]).writes c c' :=
    h.writes (by simp [Usage.of])
  simp only [executeArithmetic, hrs, hrt]
  split
  · split
    · exact h.setRd _ _
    · exact hkept
  · split
    · exact hkept
    · exact h.setRd _ _
  all_goals exact h.setRd _ _

theorem executeCountLeading_agreesOn (hfam : i.family = .countLeading)
    (h : AgreesOn i.usage.reads c c') :
    AgreesOn i.usage.writes (c.executeCountLeading i) (c'.executeCountLeading i) := by
  rw [Instr.usage, hfam] at h ⊢
  rw [executeCountLeading, executeCountLeading, h.gpr (n := i.rs) (by simp [Usage.of])]
  exact h.setRd _ _

theorem executeSignExtend_agreesOn (hfam : i.family = .signExtend)
    (h : AgreesOn i.usage.reads c c') :
    AgreesOn i.usage.writes (c.executeSignExtend i) (c'.executeSignExtend i) := by
  rw [Instr.usage, hfam] at h ⊢
  rw [executeSignExtend, executeSignExtend, h.gpr (n := i.rt) (by simp [Usage.of])]
  exact h.setRd _ _

theorem executeBitField_agreesOn (hfam : i.family = .bitField) (h : AgreesOn i.usage.reads c c') :
    AgreesOn i.usage.writes (c.executeBitField i) (c'.executeBitField i) := by
  rw [Instr.usage, hfam] at h ⊢
  simp only [executeBitField, h.gpr (n := i.rs) (by simp [Usage.of]),
    h.gpr (n := i.rt) (by simp [Usage.of])]
  split <;> exact h.setRd _ _

theorem executeImmediate_agreesOn (hfam : i.family = .immediate)
    (h : AgreesOn i.usage.reads c c') :
    AgreesOn i.usage.writes (c.executeImmediate i) (c'.executeImmediate i) := by
  rw [Instr.usage, hfam] at h ⊢
  rw [executeImmediate, executeImmediate, h.gpr (n := i.rs) (by simp [Usage.of])]
  exact h.setRd _ _

theorem executeMultiplyDivide_agreesOn (hfam : i.family = .multiplyDivide)
    (h : AgreesOn i.usage.reads c c') :
    AgreesOn i.usage.writes (c.executeMultiplyDivide i) (c'.executeMultiplyDivide i) := by
  rw [Instr.usage, hfam] at h ⊢
  simp only [executeMultiplyDivide]
  dsimp only at h ⊢
  split at h
  · rename_i hfunct
    simp only [hfunct, h.hi (by simp [Usage.of])]
    exact h.setRd _ _
  · rename_i hfunct
    simp only [hfunct, h.gpr (n := i.rs) (by simp [Usage.of])]
    exact (h.setReg .hi _).writes (by simp)
  · rename_i hfunct
    simp only [hfunct, h.lo (by simp [Usage.of])]
    exact h.setRd _ _
  · rename_i hfunct
    simp only [hfunct, h.gpr (n := i.rs) (by simp [Usage.of])]
    exact (h.setReg .lo _).writes (by simp)
  · simp only [h.gpr (n := i.rs) (by simp [Usage.of]), h.gpr (n := i.rt) (by simp [Usage.of]),
      h.hi (by simp [Usage.of]), h.lo (by simp [Usage.of])]
    have hproduct : ∀ v, AgreesOn (Usage.of [] [.hi, .lo]).writes (c.setProduct v)
        (c'.setProduct v) := fun v => (h.setProduct v).writes (by simp)
    have hhalves : ∀ hi lo, AgreesOn (Usage.of [] [.hi, .lo]).writes
        ({ c with hi := hi, lo := lo } : Core) { c' with hi := hi, lo := lo } := fun hi lo =>
      ((h.setReg .hi hi).setReg .lo lo).writes (by simp)
    split
    iterate 4 contradiction
    all_goals first | exact hproduct _ | exact hhalves _ _

theorem executeVectorBinary_agreesOn {regs : List GuestReg} (h : AgreesOn regs c c') :
    AgreesOn regs (c.executeVectorBinary i) (c'.executeVectorBinary i) := by
  simp only [executeVectorBinary, h.readOperand]
  exact (h.writeVector _ _ _).clearModifiers

theorem executeVectorUnary_agreesOn {regs : List GuestReg} (h : AgreesOn regs c c') :
    AgreesOn regs (c.executeVectorUnary i) (c'.executeVectorUnary i) := by
  simp only [executeVectorUnary, h.readOperand]
  exact (h.writeVector _ _ _).clearModifiers

theorem executeVectorCompare_agreesOn {regs : List GuestReg} (h : AgreesOn (.condition :: regs) c c') :
    AgreesOn (.condition :: regs) (c.executeVectorCompare i) (c'.executeVectorCompare i) := by
  simp only [executeVectorCompare, h.readOperand, h.condition List.mem_cons_self]
  exact ((h.setReg .condition _).mono (by simp)).clearModifiers

theorem executeVectorModifier_agreesOn {regs : List GuestReg} (h : AgreesOn regs c c') :
    AgreesOn regs (c.executeVectorModifier i) (c'.executeVectorModifier i) := h.setModifier _ _

theorem executeVectorMove_agreesOn (hfam : i.family = .vectorMove) (hhigh : i.moveSelector < 0x90)
    (h : AgreesOn i.usage.reads c c') :
    AgreesOn i.usage.writes (c.executeVectorMove i) (c'.executeVectorMove i) := by
  have hcontrol := fun hlow => Machine.moveControl_eq_condition_iff (i := i) hlow hhigh
  rw [Instr.usage, hfam] at h ⊢
  dsimp only at h ⊢
  simp only [Machine.rs_beq_of_vectorMove hfam] at h ⊢
  simp only [executeVectorMove]
  cases hto : i.movesToVector with
  | false =>
    simp only [hto, Bool.not_false, if_true] at h ⊢
    -- whatever is read, the value lands in a general register
    have hwrites : (if i.moveSelector == 0x83 then Usage.of [.condition] [.gpr i.rt]
        else Usage.of [] [.gpr i.rt]).writes = (Usage.of [] [.gpr i.rt]).writes := by split <;> rfl
    rw [hwrites]
    by_cases hlow : i.moveSelector < 0x80
    · simp only [if_pos hlow, h.element]
      exact h.setRd _ _
    · have hread : c'.control i.moveControl = c.control i.moveControl := by
        by_cases hcond : i.moveControl = conditionControl
        · rw [beq_iff_eq.mpr ((hcontrol hlow).mp hcond), if_pos rfl] at h
          rw [hcond]
          exact h.condition (by simp [Usage.of])
        · exact h.control _ hcond
      simp only [if_neg hlow, hread]
      exact h.setRd _ _
  | true =>
    simp only [hto, Bool.not_true, Bool.false_eq_true, if_false, if_true] at h ⊢
    have hrt : c'.gpr i.rt = c.gpr i.rt := by
      split at h <;> exact h.gpr (by simp [Usage.of])
    by_cases hlow : i.moveSelector < 0x80
    · have hsel : (i.moveSelector == 0x83) = false := by
        rw [beq_eq_false_iff_ne]
        intro heq
        rw [heq] at hlow
        exact absurd hlow (by decide)
      rw [hsel] at h ⊢
      simp only [if_pos hlow, hrt]
      exact (h.setElement _ _).writes (List.nil_subset _)
    · simp only [if_neg hlow, hrt]
      by_cases hcond : i.moveControl = conditionControl
      · rw [beq_iff_eq.mpr ((hcontrol hlow).mp hcond), if_pos rfl] at h ⊢
        rw [hcond]
        exact (h.setReg .condition _).writes (by simp)
      · have hsel : (i.moveSelector == 0x83) = false :=
          beq_eq_false_iff_ne.mpr fun heq => hcond ((hcontrol hlow).mpr heq)
        rw [hsel] at h ⊢
        exact (h.setControl hcond _).writes (List.nil_subset _)

end Core

namespace Machine

open Dynarec.Core (AgreesOn)

variable {m m' g : Machine} {i : Instr} {pc : UInt32} {event : StepEvent} {c c' : Core}

/-! ### Memory instructions -/

theorem loadElements_agreesOn {regs : List GuestReg} (h : AgreesOn regs c c') (memory : Memory)
    (address : UInt32) (es : List Element) :
    AgreesOn regs (loadElements c memory address es) (loadElements c' memory address es) := by
  induction es generalizing c c' address with
  | nil => exact h
  | cons e rest ih => exact ih (h.setElement e _) (address + 4)

theorem storeElements_congr (hc : c'.elements = c.elements) (memory : Memory) (address : UInt32)
    (es : List Element) : storeElements c' memory address es = storeElements c memory address es := by
  induction es generalizing memory address with
  | nil => rfl
  | cons e rest ih => simp only [storeElements, Core.element, hc, ih]

/-- Results that agree, if there are any. -/
theorem exists_of_map {x : Except Violation Memory} {regs : List GuestReg} (h : AgreesOn regs c c')
    (hok : x.map (Machine.mk c) = .ok m') :
    ∃ g', x.map (Machine.mk c') = .ok g' ∧ g'.memory = m'.memory ∧ AgreesOn regs m'.core g'.core := by
  cases x with
  | error v => cases hok
  | ok memory =>
    cases hok
    exact ⟨_, rfl, rfl, h⟩

/-- The major operations of the scalar loads and stores. -/
theorem major_of_memory (hfam : i.family = .memory) :
    i.major.toNat ∈ [0x20, 0x21, 0x23, 0x24, 0x25] ∨ i.major.toNat ∈ [0x28, 0x29, 0x2B] := by
  unfold Instr.family at hfam
  split at hfam <;> try cases hfam
  all_goals
    try simp only [Instr.familySpecial, Instr.familySign, Instr.familyVectorControl, Instr.familyBits,
      Instr.familyUnary] at hfam
    repeat' split at hfam
  all_goals first | (rename_i heq; rw [heq]; decide) | cases hfam

theorem executeMemory_agreesOn (hfam : i.family = .memory) (hmemory : g.memory = m.memory)
    (h : m.core.AgreesOn i.usage.reads g.core) (hok : m.executeMemory i = .ok m') :
    ∃ g', g.executeMemory i = .ok g' ∧ g'.memory = m'.memory ∧
      m'.core.AgreesOn i.usage.writes g'.core := by
  obtain ⟨c, memory⟩ := m
  obtain ⟨c', memory'⟩ := g
  obtain rfl : memory' = memory := hmemory
  have hge : i.major ≥ 0x28 ↔ 0x28 ≤ i.major.toNat := UInt32.le_iff_toNat_le
  rw [Instr.usage, hfam] at h ⊢
  simp only [executeMemory, scalarAddress, hge] at hok h ⊢
  rcases major_of_memory hfam with hload | hstore
  · have hlt : ¬ 0x28 ≤ i.major.toNat := by
      intro hle
      simp only [List.mem_cons, List.not_mem_nil, or_false] at hload
      omega
    rw [if_neg hlt] at h ⊢
    rw [h.gpr (n := i.rs) (by simp [Usage.of])]
    simp only [List.mem_cons, List.not_mem_nil, or_false] at hload
    rcases hload with hmajor | hmajor | hmajor | hmajor | hmajor <;> simp only [hmajor] at hok ⊢ <;>
      (cases hok; exact ⟨_, rfl, rfl, h.setRd _ _⟩)
  · have hle : 0x28 ≤ i.major.toNat := by
      simp only [List.mem_cons, List.not_mem_nil, or_false] at hstore
      omega
    rw [if_pos hle] at h ⊢
    rw [h.gpr (n := i.rs) (by simp [Usage.of]), h.gpr (n := i.rt) (by simp [Usage.of])]
    have hnone : Core.AgreesOn (Usage.of [.gpr i.rs, .gpr i.rt] []).writes c c' :=
      h.writes (List.nil_subset _)
    simp only [List.mem_cons, List.not_mem_nil, or_false] at hstore
    rcases hstore with hmajor | hmajor | hmajor <;> simp only [hmajor] at hok ⊢ <;>
      exact exists_of_map hnone hok

theorem executeVectorMemory_agreesOn {es : List Element} {loads : Bool}
    (hmemory : g.memory = m.memory) (h : m.core.AgreesOn [.gpr i.rs] g.core)
    (hok : m.executeVectorMemory i es loads = .ok m') :
    ∃ g', g.executeVectorMemory i es loads = .ok g' ∧ g'.memory = m'.memory ∧
      m'.core.AgreesOn (Usage.of [.gpr i.rs] []).writes g'.core := by
  obtain ⟨c, memory⟩ := m
  obtain ⟨c', memory'⟩ := g
  obtain rfl : memory' = memory := hmemory
  simp only [executeVectorMemory, vectorAddress, h.gpr (List.mem_singleton_self _),
    storeElements_congr h.elements] at hok ⊢
  cases loads with
  | true =>
    cases hok
    exact ⟨_, rfl, rfl, (loadElements_agreesOn h _ _ _).writes (List.nil_subset _)⟩
  | false => exact exists_of_map (h.writes (List.nil_subset _)) hok

theorem withCore_agreesOn {regs : List GuestReg} {F : Core → Core} (hmemory : g.memory = m.memory)
    (h : AgreesOn regs (F m.core) (F g.core)) (hok : m.withCore F = .ok event m') :
    ∃ g', g.withCore F = .ok event g' ∧ g'.memory = m'.memory ∧ m'.core.AgreesOn regs g'.core := by
  cases hok
  exact ⟨_, rfl, hmemory, h⟩

theorem withMemory_agreesOn {regs : List GuestReg} {F : Machine → Except Violation Machine}
    (h : ∀ m', F m = .ok m' → ∃ g', F g = .ok g' ∧ g'.memory = m'.memory ∧
      m'.core.AgreesOn regs g'.core) (hok : m.withMemory F = .ok event m') :
    ∃ g', g.withMemory F = .ok event g' ∧ g'.memory = m'.memory ∧
      m'.core.AgreesOn regs g'.core := by
  rw [withMemory] at hok
  cases hF : F m with
  | error v =>
    rw [hF] at hok
    cases hok
  | ok m₁ =>
    rw [hF] at hok
    cases hok
    obtain ⟨g', hg, hagrees⟩ := h _ hF
    exact ⟨g', by rw [withMemory, hg], hagrees⟩

/-- **The effect of an instruction depends on the registers that it reads**, and it succeeds alike. -/
theorem execute_agreesOn (hfam : i.family.isTerminator = false) (hmemory : g.memory = m.memory)
    (h : m.core.AgreesOn i.usage.reads g.core) (hok : execute i pc m = .ok event m') :
    ∃ g', execute i pc g = .ok event g' ∧ g'.memory = m'.memory ∧
      m'.core.AgreesOn i.usage.writes g'.core := by
  rw [execute] at hok ⊢
  cases hf : i.family <;> rw [hf] at hfam hok <;> simp only at hok ⊢
  case shift => exact withCore_agreesOn hmemory (Core.executeShift_agreesOn hf h) hok
  case arithmetic => exact withCore_agreesOn hmemory (Core.executeArithmetic_agreesOn hf h) hok
  case countLeading => exact withCore_agreesOn hmemory (Core.executeCountLeading_agreesOn hf h) hok
  case multiplyDivide =>
    exact withCore_agreesOn hmemory (Core.executeMultiplyDivide_agreesOn hf h) hok
  case signExtend => exact withCore_agreesOn hmemory (Core.executeSignExtend_agreesOn hf h) hok
  case bitField => exact withCore_agreesOn hmemory (Core.executeBitField_agreesOn hf h) hok
  case immediate => exact withCore_agreesOn hmemory (Core.executeImmediate_agreesOn hf h) hok
  case memory => exact withMemory_agreesOn (fun _ => executeMemory_agreesOn hf hmemory h) hok
  case sync =>
    cases hok
    rw [Instr.usage, hf] at h ⊢
    exact ⟨g, rfl, hmemory, h⟩
  case vectorModifier =>
    rw [Instr.usage, hf] at h ⊢
    exact withCore_agreesOn hmemory (Core.executeVectorModifier_agreesOn h) hok
  case vectorBinary =>
    rw [Instr.usage, hf] at h ⊢
    exact withCore_agreesOn hmemory (Core.executeVectorBinary_agreesOn h) hok
  case vectorUnary =>
    rw [Instr.usage, hf] at h ⊢
    exact withCore_agreesOn hmemory (Core.executeVectorUnary_agreesOn h) hok
  case vectorCompare =>
    rw [Instr.usage, hf] at h ⊢
    exact withCore_agreesOn hmemory (Core.executeVectorCompare_agreesOn h) hok
  case elementMemory =>
    rw [Instr.usage, hf] at h ⊢
    exact withMemory_agreesOn (fun _ => executeVectorMemory_agreesOn hmemory h) hok
  case quadMemory =>
    rw [Instr.usage, hf] at h ⊢
    exact withMemory_agreesOn (fun _ => executeVectorMemory_agreesOn hmemory h) hok
  case vectorMove =>
    split at hok
    · rename_i hhigh
      rw [if_pos hhigh]
      exact withCore_agreesOn hmemory (Core.executeVectorMove_agreesOn hf hhigh h) hok
    · cases hok
  all_goals first | (cases hfam; done) | cases hok

/-- How memory is watched makes no difference, and stays as it is if it is the same. -/
theorem execute_agreesOn_alike (hfam : i.family.isTerminator = false)
    (hmemory : m.memory.Alike g.memory) (h : m.core.AgreesOn i.usage.reads g.core)
    (hok : execute i pc m = .ok event m') :
    ∃ g', execute i pc g = .ok event g' ∧ m'.core.AgreesOn i.usage.writes g'.core ∧
      m'.memory.Alike g'.memory ∧ (g.memory = m.memory → g'.memory = m'.memory) := by
  obtain ⟨g₁, hok₁, hmemory₁, hagrees⟩ :=
    execute_agreesOn (m := m) (g := Machine.mk g.core m.memory) hfam rfl h hok
  have halike := execute_alike hmemory g.core i pc
  rw [hok₁] at halike
  generalize hresult : execute i pc ⟨g.core, g.memory⟩ = result at halike
  obtain ⟨hcore, halike⟩ | _ := halike
  rename_i g'
  refine ⟨g', rfl, hcore ▸ hagrees, hmemory₁ ▸ halike, fun heq => ?_⟩
  rw [heq, hok₁] at hresult
  injection hresult with _ hresult
  rw [← hresult, hmemory₁]

end Machine

end Dynarec
