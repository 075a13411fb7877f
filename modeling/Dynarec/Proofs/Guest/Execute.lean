import Dynarec.Guest.Usage
import Dynarec.Proofs.Guest.Core

/-!
# What the effect of an instruction depends on

The effect of an instruction that is not a branch or a stop neither reads nor writes the frame of
the core: program counter, downcount, run state, delay slot and exit request
(`Machine.execute_reframe`).  It never writes register zero, and it leaves scalar registers alone
that its usage does not list (`Machine.reg_execute`).
-/

namespace Dynarec

/-! ### The frame -/

/-- What instructions other than branches and stops leave alone. -/
structure Core.Frame where
  pc : UInt32
  downcount : Int32
  runState : RunState
  inDelaySlot : Bool
  branchTarget : Option UInt32
  exitRequested : Bool

namespace Core

/-- The frame of a core. -/
def frame (c : Core) : Frame :=
  ⟨c.pc, c.downcount, c.runState, c.inDelaySlot, c.branchTarget, c.exitRequested⟩

/-- A core with another frame. -/
def reframe (c : Core) (f : Frame) : Core :=
  { c with
    pc := f.pc
    downcount := f.downcount
    runState := f.runState
    inDelaySlot := f.inDelaySlot
    branchTarget := f.branchTarget
    exitRequested := f.exitRequested }

variable (c : Core) (f f' : Frame)

@[simp] theorem reframe_frame : c.reframe c.frame = c := rfl

@[simp] theorem frame_reframe : (c.reframe f).frame = f := rfl

@[simp] theorem reframe_reframe : (c.reframe f).reframe f' = c.reframe f' := rfl

@[simp] theorem gpr_reframe (n : Fin 32) : (c.reframe f).gpr n = c.gpr n := rfl

@[simp] theorem hi_reframe : (c.reframe f).hi = c.hi := rfl

@[simp] theorem lo_reframe : (c.reframe f).lo = c.lo := rfl

@[simp] theorem reg_reframe (r : GuestReg) : (c.reframe f).reg r = c.reg r := by
  cases r <;> rfl

@[simp] theorem condition_reframe : (c.reframe f).condition = c.condition := rfl

@[simp] theorem modifier_reframe (slot : ModifierSlot) :
    (c.reframe f).modifier slot = c.modifier slot := rfl

@[simp] theorem controls_reframe : (c.reframe f).controls = c.controls := rfl

@[simp] theorem element_reframe (e : Element) : (c.reframe f).element e = c.element e := rfl

@[simp] theorem setGpr_reframe (n : Fin 32) (v : UInt32) :
    (c.reframe f).setGpr n v = (c.setGpr n v).reframe f := by
  rw [setGpr, setGpr]
  split <;> rfl

@[simp] theorem setControl_reframe (k : Fin 16) (v : UInt32) :
    (c.reframe f).setControl k v = (c.setControl k v).reframe f := rfl

@[simp] theorem setElement_reframe (e : Element) (x : Single) :
    (c.reframe f).setElement e x = (c.setElement e x).reframe f := rfl

@[simp] theorem clearModifiers_reframe :
    (c.reframe f).clearModifiers = c.clearModifiers.reframe f := rfl

theorem frame_eq_iff_sameFrame {c c' : Core} :
    c'.frame = c.frame ↔ SameFrame c c' ∧ c'.pc = c.pc := by
  rw [frame, frame, Frame.mk.injEq]
  constructor
  · rintro ⟨h1, h2, h3, h4, h5, h6⟩
    exact ⟨⟨h2, h3, h4, h5, h6⟩, h1⟩
  · rintro ⟨⟨h2, h3, h4, h5, h6⟩, h1⟩
    exact ⟨h1, h2, h3, h4, h5, h6⟩

/-! ### Each family, with another frame -/

variable (i : Instr)

theorem executeShift_reframe :
    (c.reframe f).executeShift i = (c.executeShift i).reframe f := by
  simp only [executeShift, gpr_reframe, setGpr_reframe]

theorem executeArithmetic_reframe :
    (c.reframe f).executeArithmetic i = (c.executeArithmetic i).reframe f := by
  simp only [executeArithmetic, gpr_reframe, setGpr_reframe]
  split <;> try rfl
  · split <;> rfl
  · split <;> rfl

theorem executeCountLeading_reframe :
    (c.reframe f).executeCountLeading i = (c.executeCountLeading i).reframe f := by
  simp only [executeCountLeading, gpr_reframe, setGpr_reframe]

theorem executeSignExtend_reframe :
    (c.reframe f).executeSignExtend i = (c.executeSignExtend i).reframe f := by
  simp only [executeSignExtend, gpr_reframe, setGpr_reframe]

theorem executeMultiplyDivide_reframe :
    (c.reframe f).executeMultiplyDivide i = (c.executeMultiplyDivide i).reframe f := by
  simp only [executeMultiplyDivide, gpr_reframe, setGpr_reframe, hi_reframe, lo_reframe]
  split <;> rfl

theorem executeBitField_reframe :
    (c.reframe f).executeBitField i = (c.executeBitField i).reframe f := by
  simp only [executeBitField, gpr_reframe, setGpr_reframe]
  split <;> rfl

theorem executeImmediate_reframe :
    (c.reframe f).executeImmediate i = (c.executeImmediate i).reframe f := by
  simp only [executeImmediate, gpr_reframe, setGpr_reframe]
  rfl

theorem readOperand_reframe (size : VectorSize) (reg : UInt8) (slot : ModifierSlot) :
    (c.reframe f).readOperand size reg slot = c.readOperand size reg slot := rfl

theorem writeElements_reframe (mask : Nat → Bool) (lane : Nat) (es : List Element)
    (xs : List Single) :
    (c.reframe f).writeElements mask lane es xs = (c.writeElements mask lane es xs).reframe f := by
  induction es generalizing c lane xs with
  | nil => rfl
  | cons e es ih =>
    cases xs with
    | nil => rfl
    | cons x xs =>
      rw [writeElements, writeElements, ← ih]
      cases mask lane <;> rfl

theorem writeVector_reframe (size : VectorSize) (reg : UInt8) (result : List Single) :
    (c.reframe f).writeVector size reg result = (c.writeVector size reg result).reframe f :=
  c.writeElements_reframe f _ _ _ _

theorem executeVectorBinary_reframe :
    (c.reframe f).executeVectorBinary i = (c.executeVectorBinary i).reframe f := by
  simp only [executeVectorBinary, readOperand_reframe, writeVector_reframe, clearModifiers_reframe]

theorem executeVectorUnary_reframe :
    (c.reframe f).executeVectorUnary i = (c.executeVectorUnary i).reframe f := by
  simp only [executeVectorUnary, readOperand_reframe, writeVector_reframe, clearModifiers_reframe]

theorem executeVectorCompare_reframe :
    (c.reframe f).executeVectorCompare i = (c.executeVectorCompare i).reframe f := rfl

theorem executeVectorModifier_reframe :
    (c.reframe f).executeVectorModifier i = (c.executeVectorModifier i).reframe f := rfl

theorem executeVectorMove_reframe :
    (c.reframe f).executeVectorMove i = (c.executeVectorMove i).reframe f := by
  simp only [executeVectorMove, gpr_reframe, setGpr_reframe, element_reframe, setElement_reframe,
    setControl_reframe]
  split <;> split <;> rfl

end Core

namespace Machine

/-- A machine with another core. -/
def mapCore (m : Machine) (f : Core → Core) : Machine := ⟨f m.core, m.memory⟩

/-- A machine with another frame. -/
def reframe (m : Machine) (f : Core.Frame) : Machine := m.mapCore (·.reframe f)

/-- The machine in front of the instruction at `pc`. -/
def «at» (m : Machine) (pc : UInt32) (downcount : Int32) : Machine :=
  m.mapCore fun c => { c with pc := pc, downcount := downcount }

@[simp] theorem core_mapCore (m : Machine) (f : Core → Core) : (m.mapCore f).core = f m.core := rfl

@[simp] theorem memory_mapCore (m : Machine) (f : Core → Core) :
    (m.mapCore f).memory = m.memory := rfl

@[simp] theorem pc_at (m : Machine) (pc : UInt32) (d : Int32) : (m.at pc d).core.pc = pc := rfl

@[simp] theorem memory_at (m : Machine) (pc : UInt32) (d : Int32) :
    (m.at pc d).memory = m.memory := rfl

@[simp] theorem at_at (m : Machine) (pc pc' : UInt32) (d d' : Int32) :
    (m.at pc d).at pc' d' = m.at pc' d' := rfl

theorem at_eq_reframe (m : Machine) (pc : UInt32) (d : Int32) :
    m.at pc d = m.reframe { m.core.frame with pc := pc, downcount := d } := rfl

theorem withCore_eq (m : Machine) (f : Core → Core) : m.withCore f = .ok .normal (m.mapCore f) := rfl

/-- A result with another frame.  A broken promise leaves no machine. -/
def reframeResult (f : Core.Frame) :
    EStateM.Result StepError Machine StepEvent → EStateM.Result StepError Machine StepEvent
  | .ok event m => .ok event (m.reframe f)
  | .error (.trap t) m => .error (.trap t) (m.reframe f)
  | .error (.violation v) m => .error (.violation v) m

theorem withCore_reframe (m : Machine) (f : Core.Frame) {F : Core → Core}
    (hF : ∀ c, F (c.reframe f) = (F c).reframe f) :
    (m.reframe f).withCore F = reframeResult f (m.withCore F) := by
  rw [withCore_eq, withCore_eq]
  show EStateM.Result.ok _ (Machine.mk (F (m.core.reframe f)) m.memory) = _
  rw [hF]
  rfl

theorem withMemory_reframe (m : Machine) (f : Core.Frame) {F : Machine → Except Violation Machine}
    (hF : F (m.reframe f) = (F m).map (·.reframe f)) :
    (m.reframe f).withMemory F = reframeResult f (m.withMemory F) := by
  rw [withMemory, withMemory, hF]
  cases F m with
  | error v => rfl
  | ok m' => rfl

theorem executeMemory_reframe (m : Machine) (f : Core.Frame) (i : Instr) :
    (m.reframe f).executeMemory i = (m.executeMemory i).map (·.reframe f) := by
  obtain ⟨core, memory⟩ := m
  show (Machine.mk (core.reframe f) memory).executeMemory i = _
  simp only [executeMemory, scalarAddress, Core.gpr_reframe, Core.setGpr_reframe]
  split
  · rfl
  · rfl
  · rfl
  · rfl
  · rfl
  · cases memory.write8 _ _ <;> rfl
  · cases memory.write16 _ _ <;> rfl
  · cases memory.write32 _ _ <;> rfl

theorem loadElements_reframe (core : Core) (f : Core.Frame) (memory : Memory) (address : UInt32)
    (es : List Element) :
    loadElements (core.reframe f) memory address es =
      (loadElements core memory address es).reframe f := by
  induction es generalizing core address with
  | nil => rfl
  | cons e rest ih => exact ih (core.setElement e (memory.readSingle address)) (address + 4)

theorem storeElements_reframe (core : Core) (f : Core.Frame) (memory : Memory) (address : UInt32)
    (es : List Element) :
    storeElements (core.reframe f) memory address es = storeElements core memory address es := by
  induction es generalizing memory address with
  | nil => rfl
  | cons e rest ih => simp only [storeElements, Core.element_reframe, ih]

theorem executeVectorMemory_reframe (m : Machine) (f : Core.Frame) (i : Instr) (es : List Element)
    (loads : Bool) :
    (m.reframe f).executeVectorMemory i es loads =
      (m.executeVectorMemory i es loads).map (·.reframe f) := by
  obtain ⟨core, memory⟩ := m
  show (Machine.mk (core.reframe f) memory).executeVectorMemory i es loads = _
  simp only [executeVectorMemory, vectorAddress, Core.gpr_reframe, loadElements_reframe,
    storeElements_reframe]
  cases loads with
  | true => rfl
  | false =>
    simp only [Bool.false_eq_true, if_false]
    cases storeElements core memory _ es <;> rfl

/-- **The effect of an instruction does not depend on the frame.** -/
theorem execute_reframe {i : Instr} (hi : i.family ≠ .breakpoint) (pc : UInt32) (m : Machine)
    (f : Core.Frame) : execute i pc (m.reframe f) = reframeResult f (execute i pc m) := by
  rw [execute, execute]
  cases hfam : i.family with
  | shift => exact m.withCore_reframe f fun c => c.executeShift_reframe f i
  | arithmetic => exact m.withCore_reframe f fun c => c.executeArithmetic_reframe f i
  | countLeading => exact m.withCore_reframe f fun c => c.executeCountLeading_reframe f i
  | multiplyDivide => exact m.withCore_reframe f fun c => c.executeMultiplyDivide_reframe f i
  | signExtend => exact m.withCore_reframe f fun c => c.executeSignExtend_reframe f i
  | bitField => exact m.withCore_reframe f fun c => c.executeBitField_reframe f i
  | immediate => exact m.withCore_reframe f fun c => c.executeImmediate_reframe f i
  | memory => exact m.withMemory_reframe f (m.executeMemory_reframe f i)
  | sync => rfl
  | syscall => rfl
  | breakpoint => exact absurd hfam hi
  | vectorModifier => exact m.withCore_reframe f fun c => c.executeVectorModifier_reframe f i
  | vectorBinary => exact m.withCore_reframe f fun c => c.executeVectorBinary_reframe f i
  | vectorUnary => exact m.withCore_reframe f fun c => c.executeVectorUnary_reframe f i
  | vectorCompare => exact m.withCore_reframe f fun c => c.executeVectorCompare_reframe f i
  | elementMemory => exact m.withMemory_reframe f (m.executeVectorMemory_reframe f i _ _)
  | quadMemory => exact m.withMemory_reframe f (m.executeVectorMemory_reframe f i _ _)
  | vectorMove =>
    by_cases hs : i.moveSelector < 0x90
    · simp only [hs, if_true]
      exact m.withCore_reframe f fun c => c.executeVectorMove_reframe f i
    · simp only [hs, if_false]
      rfl
  | branch => rfl
  | branchSign => rfl
  | jump => rfl
  | jumpRegister => rfl
  | vectorBranch => rfl
  | unknown => rfl

theorem reframe_frame (m : Machine) : m.reframe m.core.frame = m := rfl

/-- **The frame is left alone.** -/
theorem frame_execute {i : Instr} (hi : i.family ≠ .breakpoint) {pc : UInt32} {m m' : Machine}
    {event : StepEvent} (hok : execute i pc m = .ok event m') : m'.core.frame = m.core.frame := by
  have hsame := execute_reframe hi pc m m.core.frame
  rw [reframe_frame, hok] at hsame
  have hm : m' = m'.reframe m.core.frame := by
    injection hsame
  rw [hm]
  rfl

/-- Only a request to the system and a stop are reported. -/
theorem event_execute {i : Instr} (hs : i.family ≠ .syscall) (hb : i.family ≠ .breakpoint)
    {pc : UInt32} {m m' : Machine} {event : StepEvent} (hok : execute i pc m = .ok event m') :
    event = .normal := by
  rw [execute] at hok
  have hmem : ∀ F : Machine → Except Violation Machine, m.withMemory F = .ok event m' →
      event = .normal := fun F hF => by
    rw [withMemory] at hF
    cases hv : F m with
    | error v => rw [hv] at hF; cases hF
    | ok m'' => rw [hv] at hF; cases hF; rfl
  cases hfam : i.family <;> rw [hfam] at hok <;>
    first
    | exact absurd hfam hs
    | exact absurd hfam hb
    | exact hmem _ hok
    | (cases hok; rfl)
    | cases hok
    | skip
  simp only at hok
  split at hok <;> cases hok
  rfl

end Machine

/-! ### Register zero -/

namespace Core

theorem gprs_writeElements (c : Core) (mask : Nat → Bool) (lane : Nat) (es : List Element)
    (xs : List Single) : (c.writeElements mask lane es xs).gprs = c.gprs := by
  induction es generalizing c lane xs with
  | nil => rfl
  | cons e es ih =>
    cases xs with
    | nil => rfl
    | cons x xs =>
      rw [writeElements, ih]
      cases mask lane <;> rfl

theorem reg_writeElements (c : Core) (mask : Nat → Bool) (lane : Nat) (es : List Element)
    (xs : List Single) (r : GuestReg) : (c.writeElements mask lane es xs).reg r = c.reg r := by
  induction es generalizing c lane xs with
  | nil => rfl
  | cons e es ih =>
    cases xs with
    | nil => rfl
    | cons x xs =>
      rw [writeElements, ih]
      cases mask lane with
      | true => rfl
      | false => exact c.reg_setElement e x r

theorem reg_setModifier (c : Core) (slot : ModifierSlot) (v : UInt32) (r : GuestReg) :
    (c.setModifier slot v).reg r = c.reg r := by
  refine c.reg_setControl ?_ v r
  cases slot <;> decide

theorem reg_clearModifiers (c : Core) (r : GuestReg) : c.clearModifiers.reg r = c.reg r := by
  rw [clearModifiers, ModifierSlot.all, List.foldl_cons, List.foldl_cons, List.foldl_cons,
    List.foldl_nil, reg_setModifier, reg_setModifier, reg_setModifier]

end Core

namespace Machine

theorem gprs_loadElements (core : Core) (memory : Memory) (address : UInt32) (es : List Element) :
    (loadElements core memory address es).gprs = core.gprs := by
  induction es generalizing core address with
  | nil => rfl
  | cons e rest ih => exact ih (core.setElement e (memory.readSingle address)) (address + 4)

theorem reg_loadElements (core : Core) (memory : Memory) (address : UInt32) (es : List Element)
    (r : GuestReg) : (loadElements core memory address es).reg r = core.reg r := by
  induction es generalizing core address with
  | nil => rfl
  | cons e rest ih =>
    exact (ih (core.setElement e (memory.readSingle address)) (address + 4)).trans
      (core.reg_setElement e _ r)

/-- What a memory instruction does to the core. -/
theorem core_executeMemory {m m' : Machine} {i : Instr} (hok : m.executeMemory i = .ok m') :
    m'.core = m.core ∨ i.major < 0x28 ∧ ∃ v, m'.core = m.core.setGpr i.rt v := by
  obtain ⟨core, memory⟩ := m
  have hstore : ∀ result : Except Violation Memory, result.map (Machine.mk core) = .ok m' →
      m'.core = core := fun result hr => by
    cases result with
    | error v => cases hr
    | ok memory' => cases hr; rfl
  have hlt : ∀ k : Nat, k < 0x28 → i.major.toNat = k → i.major < 0x28 := fun k hk heq => by
    rw [UInt32.lt_iff_toNat_lt, heq]
    exact hk
  simp only [executeMemory] at hok
  split at hok
  · rename_i hmajor
    cases hok
    exact .inr ⟨hlt _ (by decide) hmajor, _, rfl⟩
  · rename_i hmajor
    cases hok
    exact .inr ⟨hlt _ (by decide) hmajor, _, rfl⟩
  · rename_i hmajor
    cases hok
    exact .inr ⟨hlt _ (by decide) hmajor, _, rfl⟩
  · rename_i hmajor
    cases hok
    exact .inr ⟨hlt _ (by decide) hmajor, _, rfl⟩
  · rename_i hmajor
    cases hok
    exact .inr ⟨hlt _ (by decide) hmajor, _, rfl⟩
  · exact .inl (hstore _ hok)
  · exact .inl (hstore _ hok)
  · exact .inl (hstore _ hok)

/-- What a vector memory instruction does to the core. -/
theorem core_executeVectorMemory {m m' : Machine} {i : Instr} {es : List Element} {loads : Bool}
    (hok : m.executeVectorMemory i es loads = .ok m') :
    m'.core = m.core ∨ ∃ memory address, m'.core = loadElements m.core memory address es := by
  obtain ⟨core, memory⟩ := m
  simp only [executeVectorMemory] at hok
  cases loads with
  | true =>
    cases hok
    exact .inr ⟨memory, _, rfl⟩
  | false =>
    simp only [Bool.false_eq_true, if_false] at hok
    cases hs : storeElements core memory (vectorAddress core i) es with
    | error v => rw [hs] at hok; cases hok
    | ok memory' => rw [hs] at hok; cases hok; exact .inl rfl

theorem core_withCore {m m' : Machine} {F : Core → Core} {event : StepEvent}
    (hok : m.withCore F = .ok event m') : m'.core = F m.core := by
  cases hok
  rfl

theorem withMemory_eq_ok {m m' : Machine} {F : Machine → Except Violation Machine}
    {event : StepEvent} (hok : m.withMemory F = .ok event m') : F m = .ok m' := by
  rw [withMemory] at hok
  cases hF : F m with
  | error v => rw [hF] at hok; cases hok
  | ok m'' => rw [hF] at hok; cases hok; rfl

/-- **Register zero is never written.** -/
theorem gpr_zero_execute {i : Instr} {pc : UInt32} {m m' : Machine} {event : StepEvent}
    (hok : execute i pc m = .ok event m') : m'.core.gpr 0 = m.core.gpr 0 := by
  have hgprs : ∀ {c c' : Core}, c'.gprs = c.gprs → c'.gpr 0 = c.gpr 0 := fun heq => by
    rw [Core.gpr, heq]
    rfl
  have hclear : ∀ c : Core, c.clearModifiers.gprs = c.gprs := fun _ => rfl
  have hvector : ∀ es loads, m.executeVectorMemory i es loads = .ok m' →
      m'.core.gpr 0 = m.core.gpr 0 := fun es loads h => by
    rcases core_executeVectorMemory h with heq | ⟨memory, address, heq⟩
    · rw [heq]
    · rw [heq]
      exact hgprs (gprs_loadElements _ _ _ _)
  rw [execute] at hok
  cases hfam : i.family <;> simp only [hfam] at hok
  case shift => rw [core_withCore hok, Core.executeShift, Core.gpr_zero_setGpr]
  case arithmetic =>
    rw [core_withCore hok]
    simp only [Core.executeArithmetic]
    split <;> (try split) <;> simp only [Core.gpr_zero_setGpr]
  case countLeading => rw [core_withCore hok, Core.executeCountLeading, Core.gpr_zero_setGpr]
  case multiplyDivide =>
    rw [core_withCore hok]
    simp only [Core.executeMultiplyDivide]
    split <;> first | exact Core.gpr_zero_setGpr _ _ _ | rfl
  case signExtend => rw [core_withCore hok, Core.executeSignExtend, Core.gpr_zero_setGpr]
  case bitField =>
    rw [core_withCore hok]
    simp only [Core.executeBitField]
    split <;> simp only [Core.gpr_zero_setGpr]
  case immediate => rw [core_withCore hok, Core.executeImmediate, Core.gpr_zero_setGpr]
  case memory =>
    rcases core_executeMemory (withMemory_eq_ok hok) with heq | ⟨-, v, heq⟩
    · rw [heq]
    · rw [heq, Core.gpr_zero_setGpr]
  case sync => cases hok; rfl
  case syscall => cases hok; rfl
  case breakpoint => cases hok; rfl
  case vectorModifier => rw [core_withCore hok]; rfl
  case vectorBinary =>
    rw [core_withCore hok]
    exact hgprs ((hclear _).trans (Core.gprs_writeElements _ _ _ _ _))
  case vectorUnary =>
    rw [core_withCore hok]
    exact hgprs ((hclear _).trans (Core.gprs_writeElements _ _ _ _ _))
  case vectorCompare => rw [core_withCore hok]; rfl
  case elementMemory => exact hvector _ _ (withMemory_eq_ok hok)
  case quadMemory => exact hvector _ _ (withMemory_eq_ok hok)
  case vectorMove =>
    split at hok
    · rw [core_withCore hok]
      simp only [Core.executeVectorMove]
      split <;> split <;> first | exact Core.gpr_zero_setGpr _ _ _ | rfl
    · cases hok
  all_goals cases hok

/-! ### Modifiers -/

/-- Instructions that neither set nor use modifiers leave them alone. -/
theorem modifier_execute {i : Instr} (huses : i.family.usesModifiers = false)
    (hset : i.family ≠ .vectorModifier) (hmove : i.family ≠ .vectorMove) {pc : UInt32}
    {m m' : Machine} {event : StepEvent} (hok : execute i pc m = .ok event m')
    (slot : ModifierSlot) : m'.core.modifier slot = m.core.modifier slot := by
  have hgpr : ∀ (c : Core) (n : Fin 32) (v : UInt32),
      (c.setGpr n v).modifier slot = c.modifier slot := fun c n v => by
    rw [Core.modifier, Core.control_setGpr]
    rfl
  have hload : ∀ (c : Core) (memory : Memory) (address : UInt32) (es : List Element),
      (loadElements c memory address es).modifier slot = c.modifier slot := by
    intro c memory address es
    induction es generalizing c address with
    | nil => rfl
    | cons e rest ih => exact ih (c.setElement e (memory.readSingle address)) (address + 4)
  have hvector : ∀ es loads, m.executeVectorMemory i es loads = .ok m' →
      m'.core.modifier slot = m.core.modifier slot := fun es loads h => by
    rcases core_executeVectorMemory h with heq | ⟨memory, address, heq⟩
    · rw [heq]
    · rw [heq, hload]
  rw [execute] at hok
  cases hfam : i.family <;> simp only [hfam] at hok
  case shift => rw [core_withCore hok, Core.executeShift, hgpr]
  case arithmetic =>
    rw [core_withCore hok]
    simp only [Core.executeArithmetic]
    split <;> (try split) <;> simp only [hgpr]
  case countLeading => rw [core_withCore hok, Core.executeCountLeading, hgpr]
  case multiplyDivide =>
    rw [core_withCore hok]
    simp only [Core.executeMultiplyDivide]
    split <;> first | exact hgpr _ _ _ | rfl
  case signExtend => rw [core_withCore hok, Core.executeSignExtend, hgpr]
  case bitField =>
    rw [core_withCore hok]
    simp only [Core.executeBitField]
    split <;> simp only [hgpr]
  case immediate => rw [core_withCore hok, Core.executeImmediate, hgpr]
  case memory =>
    rcases core_executeMemory (withMemory_eq_ok hok) with heq | ⟨-, v, heq⟩
    · rw [heq]
    · rw [heq, hgpr]
  case sync => cases hok; rfl
  case syscall => cases hok; rfl
  case breakpoint => cases hok; rfl
  case vectorModifier => exact absurd hfam hset
  case elementMemory => exact hvector _ _ (withMemory_eq_ok hok)
  case quadMemory => exact hvector _ _ (withMemory_eq_ok hok)
  case vectorMove => exact absurd hfam hmove
  case vectorBinary => rw [hfam] at huses; cases huses
  case vectorUnary => rw [hfam] at huses; cases huses
  case vectorCompare => rw [hfam] at huses; cases huses
  all_goals cases hok

/-- **An instruction that uses modifiers leaves none pending.** -/
theorem modifier_execute_of_uses {i : Instr} (huses : i.family.usesModifiers = true) {pc : UInt32}
    {m m' : Machine} {event : StepEvent} (hok : execute i pc m = .ok event m')
    (slot : ModifierSlot) : m'.core.modifier slot = slot.identity := by
  rw [execute] at hok
  cases hfam : i.family <;> rw [hfam] at huses <;> simp only [hfam] at hok <;>
    first
    | exact absurd huses (by decide)
    | (rw [core_withCore hok]; exact Core.modifier_clearModifiers _ slot)

/-! ### Usage -/

/-- A register that is not listed as written is not one of the given ones, or is always zero. -/
theorem not_mem_of_not_writes {reads writes : List GuestReg} {r : GuestReg}
    (hr : (Usage.of reads writes).writesReg r = false) : r ∉ writes ∨ r.isZero = true := by
  by_cases hz : r.isZero = true
  · exact .inr hz
  · refine .inl fun hmem => ?_
    rw [Usage.writesReg, Usage.of, List.contains_eq_mem, decide_eq_false_iff_not,
      List.mem_filter] at hr
    exact hr ⟨hmem, by simp [hz]⟩

theorem reg_setGpr_of_ne (c : Core) {n : Fin 32} {r : GuestReg} (hr : r ≠ .gpr n) (v : UInt32) :
    (c.setGpr n v).reg r = c.reg r := by
  by_cases hn : n = 0
  · rw [hn, Core.setGpr_zero]
  · have hset := c.reg_setReg (r := .gpr n) (decide_eq_false hn) v r
    rw [if_neg (Ne.symm hr)] at hset
    exact hset

/-- The moves between the units are those with one of two selectors. -/
theorem rs_of_vectorMove {i : Instr} (hfam : i.family = .vectorMove) :
    i.rs.val = 3 ∨ i.rs.val = 7 := by
  unfold Instr.family at hfam
  split at hfam <;> try cases hfam
  all_goals
    try simp only [Instr.familySpecial, Instr.familySign, Instr.familyVectorControl, Instr.familyBits,
      Instr.familyUnary] at hfam
    repeat' split at hfam
  all_goals first | exact .inl ‹_› | exact .inr ‹_› | cases hfam

theorem reg_executeArithmetic (c : Core) (i : Instr) {r : GuestReg} (hr : r ≠ .gpr i.rd) :
    (c.executeArithmetic i).reg r = c.reg r := by
  have hset : ∀ v, (c.setGpr i.rd v).reg r = c.reg r := reg_setGpr_of_ne c hr
  simp only [Core.executeArithmetic]
  split <;> (try split) <;> first | exact hset _ | rfl

theorem reg_executeMultiplyDivide (c : Core) (i : Instr) {r : GuestReg}
    (hr : i.usage.writesReg r = false) (hfam : i.family = .multiplyDivide) :
    (c.executeMultiplyDivide i).reg r = c.reg r := by
  rw [Instr.usage, hfam] at hr
  simp only at hr
  have hlist : ∀ (reads writes : List GuestReg) (c' : Core),
      (Usage.of reads writes).writesReg r = false → (r ∉ writes → c'.reg r = c.reg r) →
      c'.reg r = c.reg r := fun reads writes c' hw h => by
    rcases not_mem_of_not_writes hw with hnot | hz
    · exact h hnot
    · rw [Core.reg_of_isZero _ hz, Core.reg_of_isZero _ hz]
  have hgpr : ∀ v, r ∉ [GuestReg.gpr i.rd] → (c.setGpr i.rd v).reg r = c.reg r := fun v hnot =>
    reg_setGpr_of_ne c (fun heq => hnot (by rw [heq]; exact List.mem_singleton_self _)) v
  have hhalves : ∀ hi lo, r ∉ [GuestReg.hi, GuestReg.lo] →
      ({ c with hi := hi, lo := lo } : Core).reg r = c.reg r := fun hi lo hnot => by
    cases r with
    | gpr n => rfl
    | hi => exact absurd (by simp) hnot
    | lo => exact absurd (by simp) hnot
    | condition => rfl
  simp only [Core.executeMultiplyDivide]
  split at hr
  · rename_i hfunct
    simp only [hfunct]
    exact hlist _ _ _ hr (hgpr _)
  · rename_i hfunct
    simp only [hfunct]
    refine hlist _ _ _ hr fun hnot => ?_
    cases r with
    | gpr n => rfl
    | hi => exact absurd (List.mem_singleton_self _) hnot
    | lo => rfl
    | condition => rfl
  · rename_i hfunct
    simp only [hfunct]
    exact hlist _ _ _ hr (hgpr _)
  · rename_i hfunct
    simp only [hfunct]
    refine hlist _ _ _ hr fun hnot => ?_
    cases r with
    | gpr n => rfl
    | hi => rfl
    | lo => exact absurd (List.mem_singleton_self _) hnot
    | condition => rfl
  · refine hlist _ _ _ hr fun hnot => ?_
    split <;> first | contradiction | exact hhalves _ _ hnot

/-- Between the selectors of the elements and 144, one selector names the condition word. -/
theorem moveControl_eq_condition_iff {i : Instr} (hlow : ¬ i.moveSelector < 0x80)
    (hhigh : i.moveSelector < 0x90) :
    i.moveControl = Core.conditionControl ↔ i.moveSelector = 0x83 := by
  have hlow : 0x80 ≤ i.moveSelector.toNat := UInt32.le_iff_toNat_le.mp (UInt32.not_lt.mp hlow)
  have hhigh : i.moveSelector.toNat < 0x90 := UInt32.lt_iff_toNat_lt.mp hhigh
  rw [← UInt32.toNat_inj, Fin.ext_iff]
  show i.moveSelector.toNat % 16 = 3 ↔ i.moveSelector.toNat = 0x83
  omega

/-- A move that does not go to the vector unit comes from it. -/
theorem rs_beq_of_vectorMove {i : Instr} (hfam : i.family = .vectorMove) :
    (i.rs == 3) = !i.movesToVector := by
  have hrs : i.rs = 3 ∨ i.rs = 7 := (rs_of_vectorMove hfam).imp Fin.ext Fin.ext
  rw [Instr.movesToVector]
  rcases hrs with hrs | hrs <;> rw [hrs] <;> rfl

/-- A scalar register that an instruction does not write keeps its value. -/
theorem reg_executeVectorMove (c : Core) (i : Instr) {r : GuestReg}
    (hr : i.usage.writesReg r = false) (hfam : i.family = .vectorMove) (hs : i.moveSelector < 0x90) :
    (c.executeVectorMove i).reg r = c.reg r := by
  by_cases hz : r.isZero = true
  · rw [Core.reg_of_isZero _ hz, Core.reg_of_isZero _ hz]
  rw [Instr.usage, hfam] at hr
  simp only [rs_beq_of_vectorMove hfam] at hr
  simp only [Core.executeVectorMove]
  have hne : ∀ {reads : List GuestReg} {x : GuestReg}, (Usage.of reads [x]).writesReg r = false →
      r ≠ x := fun hw heq =>
    (not_mem_of_not_writes hw).elim (fun hnot => hnot (heq ▸ List.mem_singleton_self _)) hz
  cases hto : i.movesToVector with
  | false =>
    rw [hto, Bool.not_false, if_pos rfl] at hr
    have hrt : r ≠ .gpr i.rt := by split at hr <;> exact hne hr
    split <;> exact reg_setGpr_of_ne c hrt _
  | true =>
    split
    · exact c.reg_setElement _ _ r
    · rename_i hlow
      rw [if_pos rfl]
      by_cases hcond : i.moveControl = Core.conditionControl
      · rw [hto, (moveControl_eq_condition_iff hlow hs).mp hcond] at hr
        have hset := c.reg_setReg (r := .condition) rfl (c.gpr i.rt) r
        rw [if_neg (Ne.symm (hne hr))] at hset
        rw [hcond]
        exact hset
      · exact c.reg_setControl hcond _ r

/-- **A scalar register that the usage of an instruction does not list is not written.** -/
theorem reg_execute {i : Instr} {r : GuestReg} (hr : i.usage.writesReg r = false) {pc : UInt32}
    {m m' : Machine} {event : StepEvent} (hok : execute i pc m = .ok event m') :
    m'.core.reg r = m.core.reg r := by
  have hone : ∀ (reads : List GuestReg) (n : Fin 32), (Usage.of reads [.gpr n]).writesReg r = false →
      ∀ v, (m.core.setGpr n v).reg r = m.core.reg r := fun reads n hw v => by
    rcases not_mem_of_not_writes hw with hnot | hz
    · exact reg_setGpr_of_ne _ (fun heq => hnot (by rw [heq]; exact List.mem_singleton_self _)) v
    · rw [Core.reg_of_isZero _ hz, Core.reg_of_isZero _ hz]
  have hvector : ∀ es loads, m.executeVectorMemory i es loads = .ok m' →
      m'.core.reg r = m.core.reg r := fun es loads h => by
    rcases core_executeVectorMemory h with heq | ⟨memory, address, heq⟩
    · rw [heq]
    · rw [heq, reg_loadElements]
  have husage := hr
  rw [Instr.usage] at husage
  rw [execute] at hok
  cases hfam : i.family <;> simp only [hfam] at hok husage
  case shift =>
    rw [core_withCore hok, Core.executeShift]
    split at husage <;> exact hone _ _ husage _
  case arithmetic =>
    rw [core_withCore hok]
    rcases not_mem_of_not_writes husage with hnot | hz
    · exact reg_executeArithmetic _ i fun heq =>
        hnot (by rw [heq]; exact List.mem_singleton_self _)
    · rw [Core.reg_of_isZero _ hz, Core.reg_of_isZero _ hz]
  case countLeading =>
    rw [core_withCore hok]
    exact hone _ _ husage _
  case multiplyDivide =>
    rw [core_withCore hok]
    exact reg_executeMultiplyDivide _ i hr hfam
  case signExtend =>
    rw [core_withCore hok]
    exact hone _ _ husage _
  case bitField =>
    rw [core_withCore hok]
    simp only [Core.executeBitField]
    split <;> exact hone _ _ husage _
  case immediate =>
    rw [core_withCore hok]
    exact hone _ _ husage _
  case memory =>
    rcases core_executeMemory (withMemory_eq_ok hok) with heq | ⟨hlt, v, heq⟩
    · rw [heq]
    · rw [if_neg (UInt32.not_le.mpr hlt)] at husage
      rw [heq]
      exact hone _ _ husage v
  case sync => cases hok; rfl
  case vectorModifier =>
    rw [core_withCore hok]
    exact Core.reg_setModifier _ _ _ r
  case vectorBinary =>
    rw [core_withCore hok]
    exact (Core.reg_clearModifiers _ r).trans (Core.reg_writeElements _ _ _ _ _ r)
  case vectorUnary =>
    rw [core_withCore hok]
    exact (Core.reg_clearModifiers _ r).trans (Core.reg_writeElements _ _ _ _ _ r)
  case vectorCompare =>
    rw [core_withCore hok]
    refine (Core.reg_clearModifiers _ r).trans ?_
    rcases not_mem_of_not_writes husage with hnot | hz
    · have hne : r ≠ .condition := fun heq => hnot (by rw [heq]; exact List.mem_singleton_self _)
      have hset := m.core.reg_setReg (r := .condition) rfl
      rw [show ∀ v, (m.core.setControl Core.conditionControl v).reg r = m.core.reg r from fun v =>
        (hset v r).trans (if_neg (Ne.symm hne))]
    · rw [Core.reg_of_isZero _ hz, Core.reg_of_isZero _ hz]
  case elementMemory => exact hvector _ _ (withMemory_eq_ok hok)
  case quadMemory => exact hvector _ _ (withMemory_eq_ok hok)
  case vectorMove =>
    split at hok
    · rename_i hs
      rw [core_withCore hok]
      exact reg_executeVectorMove _ i hr hfam hs
    · cases hok
  case syscall => cases hok; rfl
  case breakpoint =>
    cases hok
    cases r <;> rfl
  all_goals cases hok

end Machine

end Dynarec
