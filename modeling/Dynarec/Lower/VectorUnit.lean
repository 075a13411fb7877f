import Dynarec.Guest.Usage
import Dynarec.Lower.Integer

/-!
# Lowering of vector instructions

Modifiers are resolved while lowering: what a lane selects, replaces, negates, clamps or masks
becomes host code of its own.  When a modifier is not known the instruction is left to the
interpreter.  Without any modifier, an instruction on four lanes works on quad registers, provided
that its vector registers name the same four elements or share none.
-/

namespace Dynarec

/-- What a one-operand vector instruction does in each lane. -/
inductive LaneFunction where
  | copy
  | unary (op : FloatUnary)
  | constant (value : Single)
deriving DecidableEq, Repr

/-- The lane function of a one-operand vector instruction. -/
def Instr.laneFunction (i : Instr) : LaneFunction :=
  match i.unaryCode.toNat with
  | 0 => .copy
  | 1 => .unary .abs
  | 2 => .unary .neg
  | 4 => .unary .clampUnit
  | 5 => .unary .clampSigned
  | 6 => .constant Single.zero
  | _ => .constant Single.one

/-- The host operation of a two-operand vector instruction. -/
def Instr.floatOp (i : Instr) : FloatOp :=
  match i.major.toNat, i.vectorSubop.toNat with
  | 0x18, 0 => .add
  | 0x18, 1 => .sub
  | 0x18, _ => .div
  | 0x19, _ => .mul
  | _, 2 => .min
  | _, _ => .max

/-- The modifier slot that an instruction sets. -/
def Instr.modifierSlot (i : Instr) : ModifierSlot :=
  match (i.bits 24 3).toNat with
  | 0 => .source
  | 1 => .target
  | _ => .destination

/-- Two vector registers name the same four elements in the same order, or share none. -/
def quadsAgree (a b : UInt8) : Bool :=
  a == b || (VectorSize.quad.elements a).all fun e => !(VectorSize.quad.elements b).contains e

/-- Any two of the vector registers agree. -/
def allQuadsAgree : List UInt8 → Bool
  | [] => true
  | reg :: rest => rest.all (quadsAgree reg) && allQuadsAgree rest

namespace Lowering

/-! ### Operands and results -/

/-- A temporary with a constant. -/
def constantTemporary (value : Single) : Lowering FloatReg := do
  let t ← temporary
  emit (.floatImm t value.bits)
  return t

/-- The sign part of a modifier, applied to a float register. -/
def modifySign (m : LaneModifier) (fs : FloatReg) : Lowering FloatReg := do
  if m.abs then
    let t ← temporary
    emit (.floatUnary .abs t fs)
    if m.negate then emit (.floatUnary .neg t t)
    return t
  else if m.negate then
    let t ← temporary
    emit (.floatUnary .neg t fs)
    return t
  else return fs

/-- **One lane of an operand**, as the modifier presents it.  A lane beyond the operand reads
zero. -/
def readLane (elements : List Element) (modifier : UInt32) (lane : Nat) :
    Lowering FloatReg := do
  let m := LaneModifier.ofWord modifier lane
  if m.constant then
    constantTemporary (if m.negate then m.constantValue.neg else m.constantValue)
  else
    match elements[m.lane.val]? with
    | none => constantTemporary (if m.negate then Single.zero.neg else Single.zero)
    | some e => modifySign m (← readElement e)

/-- Clamp a result in place. -/
def clampResult (clamp : Clamp) (fs : FloatReg) : Lowering Unit :=
  match clamp with
  | .none => pure ()
  | .unit => emit (.floatUnary .clampUnit fs fs)
  | .signed => emit (.floatUnary .clampSigned fs fs)

/-- **Write lane results through the destination modifier**, from `lane` on. -/
def writeLanes (modifier : UInt32) : (lane : Nat) → List Element → List FloatReg → Lowering Unit
  | lane, e :: elements, fs :: results => do
    unless writeMasked modifier lane do
      clampResult (clampOf modifier lane) fs
      let fd ← writeElement e
      moveFloat fd fs
    writeLanes modifier (lane + 1) elements results
  | _, _, _ => pure ()

/-! ### Arithmetic -/

/-- An instruction on the vector registers can work on quad registers. -/
def usesQuads (i : Instr) (regs : List UInt8) : Lowering Bool := do
  return i.vectorSize = .quad && (← get).modifiers.hasNoModifier && allQuadsAgree regs

/-- One lane of two-operand arithmetic. -/
def binaryLane (op : FloatOp) (known : ModifierTracker.Known) (s t : List Element) (lane : Nat) :
    Lowering FloatReg := do
  let fs ← readLane s known.source lane
  let ft ← readLane t known.target lane
  let fd ← temporary
  emit (.float op fd fs ft)
  return fd

/-- Two-operand arithmetic. -/
def vectorBinary (i : Instr) (pc : UInt32) : Lowering Unit := do
  match (← get).modifiers.known? with
  | none => interpret i pc
  | some known =>
    let size := i.vectorSize
    if ← usesQuads i [i.vd, i.vs, i.vt] then
      let qs ← readQuad i.vs
      let qt ← readQuad i.vt
      let qd ← writeQuad i.vd
      emit (.quad i.floatOp qd qs qt)
    else
      let results ← (List.range size.lanes).mapM
        (binaryLane i.floatOp known (size.elements i.vs) (size.elements i.vt))
      writeLanes known.destination 0 (size.elements i.vd) results
    updateModifiers (·.consume)

/-- One lane of a one-operand instruction. -/
def unaryLane (f : LaneFunction) (known : ModifierTracker.Known) (s : List Element) (lane : Nat) :
    Lowering FloatReg := do
  let fd ← temporary
  match f with
  | .constant value => emit (.floatImm fd value.bits)
  | .copy => moveFloat fd (← readLane s known.source lane)
  | .unary op => emit (.floatUnary op fd (← readLane s known.source lane))
  return fd

/-- A one-operand instruction, lane by lane. -/
def unaryLanes (i : Instr) (known : ModifierTracker.Known) : Lowering Unit := do
  let size := i.vectorSize
  let results ← (List.range size.lanes).mapM
    (unaryLane i.laneFunction known (size.elements i.vs))
  writeLanes known.destination 0 (size.elements i.vd) results

/-- One-operand functions and constants.  Copies are always made lane by lane. -/
def vectorUnary (i : Instr) (pc : UInt32) : Lowering Unit := do
  match (← get).modifiers.known? with
  | none => interpret i pc
  | some known =>
    match i.laneFunction, ← usesQuads i [i.vd, i.vs] with
    | .unary op, true =>
      let qs ← readQuad i.vs
      let qd ← writeQuad i.vd
      emit (.quadUnary op qd qs)
    | .constant value, true =>
      let qd ← writeQuad i.vd
      emit (.quadImm qd value.bits)
    | _, _ => unaryLanes i known
    updateModifiers (·.consume)

/-- One lane of a compare, into its bit of the scratch register. -/
def compareLane (i : Instr) (known : ModifierTracker.Known) (lane : Nat) : Lowering Unit := do
  let size := i.vectorSize
  let fs ← readLane (size.elements i.vs) known.source lane
  let ft ← readLane (size.elements i.vt) known.target lane
  emit (.floatCompare (Fin.ofNat 16 i.word.toNat) (Fin.ofNat 16 lane) HostReg.scratch fs ft)

/-- Compares.  The destination modifier plays no part. -/
def vectorCompare (i : Instr) (pc : UInt32) : Lowering Unit := do
  match (← get).modifiers.known? with
  | none => interpret i pc
  | some known =>
    let lanes := i.vectorSize.lanes
    emit (.movImm HostReg.scratch 0)
    (List.range lanes).forM (compareLane i known)
    let condition ← bind .condition
    emit (.mergeConditions condition HostReg.scratch (UInt8.ofNat lanes))
    markDirty .condition
    updateModifiers (·.consume)

/-- Set a pending modifier.  No code is needed until someone looks at the control register. -/
def vectorModifier (i : Instr) : Lowering Unit :=
  updateModifiers (·.setPending i.modifierSlot (i.bits 0 0xFFFFF))

/-! ### Memory -/

/-- Load or store one element. -/
def elementAccess (i : Instr) : Lowering Unit := do
  let e := VectorSize.single.element i.elementReg 0
  let base ← bindGpr i.rs
  if i.major == 0x32 then
    let fd ← writeElement e
    emit (.floatLoad fd base i.vectorOffset)
  else
    let fs ← readElement e
    emit (.floatStore fs base i.vectorOffset)

/-- Load or store four elements. -/
def quadAccess (i : Instr) : Lowering Unit := do
  let base ← bindGpr i.rs
  if i.major == 0x36 then
    let qd ← writeQuad i.quadReg
    emit (.quadLoad qd base i.vectorOffset)
  else
    let qs ← readQuad i.quadReg
    emit (.quadStore qs base i.vectorOffset)

/-! ### Moves between the units -/

/-- Move between a general register and an element. -/
def moveElement (i : Instr) : Lowering Unit := do
  let e := VectorSize.single.element i.moveSelector.toUInt8 0
  if i.movesToVector then
    let rs ← bindGpr i.rt
    let fd ← writeElement e
    emit (.intToFloat fd rs)
  else if i.rt ≠ 0 then
    let fs ← readElement e
    let rd ← bindGprForWrite i.rt
    emit (.floatToInt rd fs)

/-- Move between a general register and the condition word. -/
def moveCondition (i : Instr) : Lowering Unit := do
  if i.movesToVector then
    let rs ← bindGpr i.rt
    let condition ← bindForWrite .condition
    move condition rs
  else if i.rt ≠ 0 then
    let condition ← bind .condition
    let rd ← bindGprForWrite i.rt
    move rd condition

/-- Move between a general register and any other control register.  A modifier that is set this
way is not known any more; one that is read has to be written first. -/
def moveControl (i : Instr) : Lowering Unit := do
  let index := i.moveControl
  let slot := ModifierSlot.ofControl? index.val
  if i.movesToVector then
    let rs ← bindGpr i.rt
    emit (.storeControl rs (UInt8.ofNat index.val))
    if let some slot := slot then updateModifiers (·.forget slot)
  else if i.rt ≠ 0 then
    if slot.isSome then flushModifiers
    let rd ← bindGprForWrite i.rt
    emit (.loadControl rd (UInt8.ofNat index.val))

/-- Moves between the units. -/
def vectorMove (i : Instr) (pc : UInt32) : Lowering Unit :=
  if i.moveSelector < 0x80 then moveElement i
  else if i.moveSelector ≥ 0x90 then interpret i pc
  else if i.moveControl = Core.conditionControl then moveCondition i
  else moveControl i

/-! ### Every instruction that does not end a block -/

/-- **Translate an instruction that does not end a block.** -/
def plain (i : Instr) (pc : UInt32) : Lowering Unit :=
  match i.family with
  | .shift => shift i
  | .arithmetic => arithmetic i pc
  | .countLeading => countLeading i
  | .multiplyDivide => multiplyDivide i pc
  | .signExtend => signExtend i
  | .bitField => bitField i
  | .immediate => immediate i
  | .memory => access i
  | .sync => pure ()
  | .vectorModifier => vectorModifier i
  | .vectorBinary => vectorBinary i pc
  | .vectorUnary => vectorUnary i pc
  | .vectorCompare => vectorCompare i pc
  | .elementMemory => elementAccess i
  | .quadMemory => quadAccess i
  | .vectorMove => vectorMove i pc
  | .branch | .branchSign | .jump | .jumpRegister | .syscall | .breakpoint | .vectorBranch
  | .unknown => interpret i pc

end Lowering

end Dynarec
