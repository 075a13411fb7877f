import Dynarec.Guest.Core
import Dynarec.Guest.Memory

/-!
# The reference interpreter

One guest instruction at a time, with delay slots and pending modifiers.  `Machine.execute` is the
effect of an instruction that is not a branch, `Machine.step` is one retired instruction, and
`Machine.runOne` is a step together with the delay slot that it opens, so that it ends where a
block can start.

A step that cannot be done leaves the machine as it was and reports a `Trap`.
-/

namespace Dynarec

/-- The core together with its memory. -/
structure Machine where
  core : Core
  memory : Memory

/-- What the caller has to do after an instruction retired. -/
inductive StepEvent where
  | normal
  /-- A request to the system retired; the program counter is past it. -/
  | syscall (code : UInt32)
  /-- A breakpoint retired and stopped the core. -/
  | breakpoint
deriving DecidableEq, Repr, Inhabited

/-- Why an instruction cannot be executed. -/
inductive Trap where
  /-- The core has no such instruction. -/
  | unimplemented (word pc : UInt32)
  /-- No instruction can be fetched. -/
  | fetchFault (pc : UInt32)
deriving DecidableEq, Repr, Inhabited

namespace Trap

/-- The message of a trap. -/
def message : Trap → String
  | unimplemented word pc => s!"unimplemented instruction {Hex.word word} at {Hex.word pc}"
  | fetchFault pc => s!"instruction fetch from unmapped address {Hex.word pc}"

/-- The run state of a core that a trap stopped. -/
def runState : Trap → RunState
  | unimplemented word pc => .faulted pc word
  | fetchFault pc => .faulted pc 0

end Trap

/-- Why a step has no result. -/
inductive StepError where
  | trap (t : Trap)
  | violation (v : Violation)
deriving DecidableEq, Repr, Inhabited

/-- An action on the machine.  The machine is kept when the action fails. -/
abbrev Stepping := EStateM StepError Machine

/-! ### Integer functions -/

/-- Number of leading zero bits. -/
def leadingZeros (w : UInt32) : UInt32 := UInt32.ofNat (if w == 0 then 32 else 31 - w.toNat.log2)

/-- Number of leading one bits. -/
def leadingOnes (w : UInt32) : UInt32 := leadingZeros (~~~w)

/-- Rotate right by less than 32. -/
def rotateRight (w amount : UInt32) : UInt32 :=
  if amount == 0 then w else w >>> amount ||| w <<< (32 - amount)

/-- Shift right, copying the sign. -/
def shiftRightSigned (w amount : UInt32) : UInt32 := (w.toInt32 >>> amount.toInt32).toUInt32

/-- A signed compare. -/
def signedLess (a b : UInt32) : Bool := decide (a.toInt32 < b.toInt32)

/-- The greater of two signed words. -/
def signedMax (a b : UInt32) : UInt32 := if signedLess a b then b else a

/-- The lesser of two signed words. -/
def signedMin (a b : UInt32) : UInt32 := if signedLess b a then b else a

/-- The 64-bit product of two signed words. -/
def signedProduct (a b : UInt32) : UInt64 := (a.toInt32.toInt64 * b.toInt32.toInt64).toUInt64

/-- The 64-bit product of two unsigned words. -/
def unsignedProduct (a b : UInt32) : UInt64 := a.toUInt64 * b.toUInt64

/-- The words `hi` and `lo` as one number. -/
def joinWords (hi lo : UInt32) : UInt64 := hi.toUInt64 <<< 32 ||| lo.toUInt64

/-- Signed quotient and remainder.  Dividing by zero gives minus one, or one for a negative
dividend, and leaves the dividend; the one quotient that does not fit leaves all ones. -/
def divideSigned (a b : UInt32) : UInt32 × UInt32 :=
  if a == 0x80000000 && b == 0xFFFFFFFF then (0x80000000, 0xFFFFFFFF)
  else if b == 0 then (if signedLess a 0 then 1 else 0xFFFFFFFF, a)
  else ((a.toInt32 / b.toInt32).toUInt32, (a.toInt32 % b.toInt32).toUInt32)

/-- Unsigned quotient and remainder.  Dividing by zero gives all ones, sixteen of them if the
dividend fits in sixteen bits, and leaves the dividend. -/
def divideUnsigned (a b : UInt32) : UInt32 × UInt32 :=
  if b == 0 then (if a ≤ 0xFFFF then 0xFFFF else 0xFFFFFFFF, a) else (a / b, a % b)

/-- The lowest `size` bits set, for at most 32 bits. -/
def lowMask (size : Nat) : UInt32 := UInt32.ofNat (Nat.pow 2 size - 1)

namespace Core

/-! ### Scalar instructions -/

/-- Shifts and rotates.  One bit turns the logical right shift into a rotate. -/
def executeShift (c : Core) (i : Instr) : Core :=
  let operand := c.gpr i.rt
  let byRegister := i.bit 2
  let amount := if byRegister then c.gpr i.rs &&& 0x1F else i.shamt
  let rotates := if byRegister then i.bit 6 else i.bit 21
  let value :=
    match (i.funct &&& 3).toNat with
    | 0 => operand <<< amount
    | 2 => if rotates then rotateRight operand amount else operand >>> amount
    | _ => shiftRightSigned operand amount
  c.setGpr i.rd value

/-- Three-register arithmetic.  A conditional move that does not move leaves its destination. -/
def executeArithmetic (c : Core) (i : Instr) : Core :=
  let a := c.gpr i.rs
  let b := c.gpr i.rt
  match i.funct.toNat with
  | 0x0A => if b == 0 then c.setGpr i.rd a else c
  | 0x0B => if b == 0 then c else c.setGpr i.rd a
  | 0x20 | 0x21 => c.setGpr i.rd (a + b)
  | 0x22 | 0x23 => c.setGpr i.rd (a - b)
  | 0x24 => c.setGpr i.rd (a &&& b)
  | 0x25 => c.setGpr i.rd (a ||| b)
  | 0x26 => c.setGpr i.rd (a ^^^ b)
  | 0x27 => c.setGpr i.rd (~~~(a ||| b))
  | 0x2A => c.setGpr i.rd (flagWord (signedLess a b))
  | 0x2B => c.setGpr i.rd (flagWord (decide (a < b)))
  | 0x2C => c.setGpr i.rd (signedMax a b)
  | _ => c.setGpr i.rd (signedMin a b)

/-- Count leading zeros or ones. -/
def executeCountLeading (c : Core) (i : Instr) : Core :=
  let a := c.gpr i.rs
  c.setGpr i.rd (if i.funct == 0x16 then leadingZeros a else leadingOnes a)

/-- Extend a byte or a halfword. -/
def executeSignExtend (c : Core) (i : Instr) : Core :=
  let a := c.gpr i.rt
  c.setGpr i.rd (if i.shamt == 0x10 then (signExtend8 a).toUInt32 else (signExtend16 a).toUInt32)

/-- Write both halves of a product. -/
def setProduct (c : Core) (value : UInt64) : Core :=
  { c with hi := (value >>> 32).toUInt32, lo := value.toUInt32 }

/-- Products, quotients and the product registers. -/
def executeMultiplyDivide (c : Core) (i : Instr) : Core :=
  let a := c.gpr i.rs
  let b := c.gpr i.rt
  let product := joinWords c.hi c.lo
  match i.funct.toNat with
  | 0x10 => c.setGpr i.rd c.hi
  | 0x11 => { c with hi := a }
  | 0x12 => c.setGpr i.rd c.lo
  | 0x13 => { c with lo := a }
  | 0x18 => c.setProduct (signedProduct a b)
  | 0x19 => c.setProduct (unsignedProduct a b)
  | 0x1A =>
    let (quotient, remainder) := divideSigned a b
    { c with lo := quotient, hi := remainder }
  | 0x1B =>
    let (quotient, remainder) := divideUnsigned a b
    { c with lo := quotient, hi := remainder }
  | 0x1C => c.setProduct (product + signedProduct a b)
  | 0x1D => c.setProduct (product + unsignedProduct a b)
  | 0x2E => c.setProduct (product - signedProduct a b)
  | _ => c.setProduct (product - unsignedProduct a b)

/-- Extract a field, whose width is encoded less one, or insert one, whose last bit is encoded.
A last bit below the first counts as a width of one. -/
def executeBitField (c : Core) (i : Instr) : Core :=
  let a := c.gpr i.rs
  let pos := i.shamt
  if i.funct == 0 then
    c.setGpr i.rt (a >>> pos &&& lowMask (i.rd.val + 1))
  else
    let mask := lowMask (i.rd.val - pos.toNat + 1) <<< pos
    c.setGpr i.rt (c.gpr i.rt &&& ~~~mask ||| a <<< pos &&& mask)

/-- Arithmetic with an immediate. -/
def executeImmediate (c : Core) (i : Instr) : Core :=
  let a := c.gpr i.rs
  let signed := i.offset.toUInt32
  let unsigned := i.immediate
  let value :=
    match i.major.toNat with
    | 0x08 | 0x09 => a + signed
    | 0x0A => flagWord (signedLess a signed)
    | 0x0B => flagWord (decide (a < signed))
    | 0x0C => a &&& unsigned
    | 0x0D => a ||| unsigned
    | 0x0E => a ^^^ unsigned
    | _ => unsigned <<< 16
  c.setGpr i.rt value

/-! ### Vector instructions -/

/-- The elements of a vector register. -/
def readVector (c : Core) (size : VectorSize) (reg : UInt8) : List Single :=
  (size.elements reg).map c.element

/-- A vector register through a source or target modifier. -/
def readOperand (c : Core) (size : VectorSize) (reg : UInt8) (slot : ModifierSlot) : List Single :=
  applySource (c.modifier slot) (c.readVector size reg)

/-- Write values to elements, except where the mask forbids it. -/
def writeElements (c : Core) (mask : Nat → Bool) : (lane : Nat) → List Element → List Single → Core
  | lane, e :: es, x :: xs =>
    (if mask lane then c else c.setElement e x).writeElements mask (lane + 1) es xs
  | _, _, _ => c

/-- Write a result through the destination modifier. -/
def writeVector (c : Core) (size : VectorSize) (reg : UInt8) (result : List Single) : Core :=
  let word := c.modifier .destination
  c.writeElements (writeMasked word) 0 (size.elements reg) (applyDestination word result)

/-- The function of a two-operand vector instruction. -/
def binaryFunction (i : Instr) : Single → Single → Single :=
  match i.major.toNat, i.vectorSubop.toNat with
  | 0x18, 0 => Single.add
  | 0x18, 1 => Single.sub
  | 0x18, _ => Single.div
  | 0x19, _ => Single.mul
  | _, 2 => Single.min
  | _, _ => Single.max

/-- Lane-wise arithmetic. -/
def executeVectorBinary (c : Core) (i : Instr) : Core :=
  let size := i.vectorSize
  let s := c.readOperand size i.vs .source
  let t := c.readOperand size i.vt .target
  (c.writeVector size i.vd (List.zipWith (binaryFunction i) s t)).clearModifiers

/-- The function of a one-operand vector instruction. -/
def unaryFunction (i : Instr) : Single → Single :=
  match i.unaryCode.toNat with
  | 0 => id
  | 1 => Single.abs
  | 2 => Single.neg
  | 4 => Single.clampUnit
  | 5 => Single.clampSigned
  | 6 => fun _ => Single.zero
  | _ => fun _ => Single.one

/-- Lane-wise functions of one vector. -/
def executeVectorUnary (c : Core) (i : Instr) : Core :=
  let size := i.vectorSize
  let s := c.readOperand size i.vs .source
  (c.writeVector size i.vd (s.map (unaryFunction i))).clearModifiers

/-- Compare lane by lane; the destination modifier plays no part. -/
def executeVectorCompare (c : Core) (i : Instr) : Core :=
  let size := i.vectorSize
  let s := c.readOperand size i.vs .source
  let t := c.readOperand size i.vt .target
  let hits := List.zipWith (compareLane (i.bits 0 0xF)) s t
  (c.setControl conditionControl (mergeConditions c.condition hits)).clearModifiers

/-- Set a pending modifier. -/
def executeVectorModifier (c : Core) (i : Instr) : Core :=
  let slot : ModifierSlot :=
    match (i.bits 24 3).toNat with
    | 0 => .source
    | 1 => .target
    | _ => .destination
  c.setModifier slot (i.bits 0 0xFFFFF)

/-- Moves between the units.  Selectors below 128 name an element, the next sixteen a control
register. -/
def executeVectorMove (c : Core) (i : Instr) : Core :=
  if i.moveSelector < 0x80 then
    let e := VectorSize.single.element i.moveSelector.toUInt8 0
    if i.movesToVector then c.setElement e ⟨c.gpr i.rt⟩ else c.setGpr i.rt (c.element e).bits
  else
    let index := i.moveControl
    if i.movesToVector then c.setControl index (c.gpr i.rt) else c.setGpr i.rt (c.control index)

end Core

namespace Machine

/-- A machine without memory; it stands for one that a broken promise has lost. -/
def empty : Machine := ⟨Core.start 0, Memory.create 0 0⟩

/-- Stop the core for a trap. -/
def fault (m : Machine) (t : Trap) : Machine :=
  let ⟨core, memory⟩ := m
  ⟨{ core with runState := t.runState }, memory⟩

/-! ### Memory instructions -/

/-- The address of a scalar load or store. -/
def scalarAddress (c : Core) (i : Instr) : UInt32 := c.gpr i.rs + i.offset.toUInt32

/-- The address of a vector load or store. -/
def vectorAddress (c : Core) (i : Instr) : UInt32 := c.gpr i.rs + i.vectorOffset.toUInt32

/-- Scalar loads and stores. -/
def executeMemory (m : Machine) (i : Instr) : Except Violation Machine :=
  let ⟨core, memory⟩ := m
  let address := scalarAddress core i
  let value := core.gpr i.rt
  match i.major.toNat with
  | 0x20 => .ok ⟨core.setGpr i.rt (signExtend8 (memory.read8 address)).toUInt32, memory⟩
  | 0x21 => .ok ⟨core.setGpr i.rt (signExtend16 (memory.read16 address)).toUInt32, memory⟩
  | 0x23 => .ok ⟨core.setGpr i.rt (memory.read32 address), memory⟩
  | 0x24 => .ok ⟨core.setGpr i.rt (memory.read8 address), memory⟩
  | 0x25 => .ok ⟨core.setGpr i.rt (memory.read16 address), memory⟩
  | 0x28 => (memory.write8 address value).map (Machine.mk core)
  | 0x29 => (memory.write16 address value).map (Machine.mk core)
  | _ => (memory.write32 address value).map (Machine.mk core)

/-- Load consecutive words into elements. -/
def loadElements (core : Core) (memory : Memory) (address : UInt32) : List Element → Core
  | [] => core
  | e :: rest =>
    loadElements (core.setElement e (memory.readSingle address)) memory (address + 4) rest

/-- Store elements to consecutive words. -/
def storeElements (core : Core) (memory : Memory) (address : UInt32) :
    List Element → Except Violation Memory
  | [] => .ok memory
  | e :: rest => do
    let memory ← memory.writeSingle address (core.element e)
    storeElements core memory (address + 4) rest

/-- Vector loads and stores. -/
def executeVectorMemory (m : Machine) (i : Instr) (elements : List Element) (loads : Bool) :
    Except Violation Machine :=
  let ⟨core, memory⟩ := m
  let address := vectorAddress core i
  if loads then .ok ⟨loadElements core memory address elements, memory⟩
  else (storeElements core memory address elements).map (Machine.mk core)

/-! ### Instructions that are not branches -/

/-- The outcome of an action that changes the core only. -/
def withCore (m : Machine) (f : Core → Core) : EStateM.Result StepError Machine StepEvent :=
  let ⟨core, memory⟩ := m
  .ok .normal ⟨f core, memory⟩

/-- The outcome of an action that may break a promise. -/
def withMemory (m : Machine) (f : Machine → Except Violation Machine) :
    EStateM.Result StepError Machine StepEvent :=
  match f m with
  | .ok m => .ok .normal m
  | .error v => .error (.violation v) Machine.empty

/-- **The effect of an instruction that is not a branch**, found at `pc`.  The program counter is
not touched. -/
def execute (i : Instr) (pc : UInt32) : Stepping StepEvent := fun m =>
  match i.family with
  | .shift => m.withCore (·.executeShift i)
  | .arithmetic => m.withCore (·.executeArithmetic i)
  | .countLeading => m.withCore (·.executeCountLeading i)
  | .multiplyDivide => m.withCore (·.executeMultiplyDivide i)
  | .bitField => m.withCore (·.executeBitField i)
  | .signExtend => m.withCore (·.executeSignExtend i)
  | .immediate => m.withCore (·.executeImmediate i)
  | .memory => m.withMemory (·.executeMemory i)
  | .sync => .ok .normal m
  | .syscall => .ok (.syscall i.code) m
  | .breakpoint =>
    let ⟨core, memory⟩ := m
    .ok .breakpoint ⟨{ core with runState := .stopped pc }, memory⟩
  | .vectorModifier => m.withCore (·.executeVectorModifier i)
  | .vectorBinary => m.withCore (·.executeVectorBinary i)
  | .vectorUnary => m.withCore (·.executeVectorUnary i)
  | .vectorCompare => m.withCore (·.executeVectorCompare i)
  | .elementMemory =>
    m.withMemory (·.executeVectorMemory i (VectorSize.single.elements i.elementReg)
      (i.major == 0x32))
  | .quadMemory =>
    m.withMemory (·.executeVectorMemory i (VectorSize.quad.elements i.quadReg) (i.major == 0x36))
  | .vectorMove =>
    if i.moveSelector < 0x90 then m.withCore (·.executeVectorMove i)
    else .error (.trap (.unimplemented i.word pc)) m
  | .branch | .branchSign | .jump | .jumpRegister | .vectorBranch | .unknown =>
    .error (.trap (.unimplemented i.word pc)) m

end Machine

/-! ### Branches -/

/-- What a branch does once its operands are read. -/
structure BranchOutcome where
  taken : Bool
  target : UInt32
  /-- The delay slot is skipped when the branch is not taken. -/
  likely : Bool

namespace Core

/-- The outcome of the branch `i` at `pc`. -/
def branchOutcome (c : Core) (i : Instr) (pc : UInt32) : BranchOutcome :=
  match i.family with
  | .branch =>
    let a := c.gpr i.rs
    let b := c.gpr i.rt
    let taken :=
      match (i.major &&& 3).toNat with
      | 0 => a == b
      | 1 => a != b
      | 2 => !signedLess 0 a
      | _ => signedLess 0 a
    ⟨taken, i.branchTarget pc, decide (i.major ≥ 0x14)⟩
  | .branchSign =>
    let negative := signedLess (c.gpr i.rs) 0
    ⟨if i.bit 16 then !negative else negative, i.branchTarget pc, i.bit 17⟩
  | .vectorBranch =>
    let bit := c.condition >>> i.bits 18 7 &&& 1
    ⟨bit == i.bits 16 1, i.branchTarget pc, i.bit 17⟩
  | .jump => ⟨true, i.jumpTarget pc, false⟩
  | _ => ⟨true, c.gpr i.rs, false⟩

/-- Write the link of a branch, if it has one. -/
def link (c : Core) (i : Instr) (pc : UInt32) : Core :=
  match i.family with
  | .branchSign => if i.bit 20 then c.setGpr 31 (pc + 8) else c
  | .jump => if i.major == 3 then c.setGpr 31 (pc + 8) else c
  | .jumpRegister => if i.funct == 9 then c.setGpr i.rd (pc + 8) else c
  | _ => c

/-- **A branch outside a delay slot.**  The link is written after the operands are read; then the
delay slot opens, or is skipped by a likely branch that is not taken. -/
def branch (c : Core) (i : Instr) (pc : UInt32) : Core :=
  let outcome := c.branchOutcome i pc
  let c := c.link i pc
  if outcome.likely && !outcome.taken then { c with pc := pc + 8 }
  else
    { c with
      inDelaySlot := true
      branchTarget := some (if outcome.taken then outcome.target else pc + 8)
      pc := pc + 4 }

/-- **Retire the instruction at `pc`.**  A cycle is charged; an instruction in a delay slot
continues at the recorded target, and one that did not set the program counter at the next word. -/
def retire (c : Core) (pc : UInt32) (wasInDelaySlot : Bool) : Core :=
  let c := { c with downcount := c.downcount - 1 }
  if wasInDelaySlot then
    { c with inDelaySlot := false, pc := c.branchTarget.getD (pc + 4), branchTarget := none }
  else if !c.inDelaySlot && c.pc == pc then { c with pc := pc + 4 }
  else c

end Core

namespace Machine

/-- The effect of the instruction `i` at `pc`, branches included.  A branch in a delay slot only
writes its link. -/
def perform (i : Instr) (pc : UInt32) (inDelaySlot : Bool) : Stepping StepEvent := fun m =>
  if i.family.hasDelaySlot then
    m.withCore fun c => if inDelaySlot then c.link i pc else c.branch i pc
  else execute i pc m

/-- **One instruction.** -/
def step : Stepping StepEvent := fun m =>
  let pc := m.core.pc
  let inDelaySlot := m.core.inDelaySlot
  match m.memory.fetch? pc with
  | none => .error (.trap (.fetchFault pc)) m
  | some word =>
    match perform ⟨word⟩ pc inDelaySlot m with
    | .error e m => .error e m
    | .ok event m =>
      if m.core.downcount == Int32.minValue then .error (.violation .downcountUnderflow) m
      else
        let ⟨core, memory⟩ := m
        .ok event ⟨core.retire pc inDelaySlot, memory⟩

/-- **One instruction and the delay slot that it opens.** -/
def runOne : Stepping StepEvent := fun m =>
  match step m with
  | .error e m => .error e m
  | .ok event m => if m.core.inDelaySlot then step m else .ok event m

end Machine

end Dynarec
