import Dynarec.Guest.Instruction
import Dynarec.Lower.Builder

/-!
# Lowering of scalar instructions

One rule per family.  A rule binds its operands first and its destination last, so that a
destination may share the host register of an operand.  An instruction whose only effect would be on
register zero has no code.
-/

namespace Dynarec

/-! ### Host operations for guest instructions -/

/-- The host operation of a shift.  One bit turns the logical right shift into a rotate. -/
def Instr.shiftOp (i : Instr) : AluOp :=
  let rotates := if i.bit 2 then i.bit 6 else i.bit 21
  match (i.funct &&& 3).toNat with
  | 0 => .sll
  | 2 => if rotates then .ror else .srl
  | _ => .sra

/-- The host operation of three-register arithmetic, conditional moves apart. -/
def Instr.arithmeticOp? (i : Instr) : Option AluOp :=
  match i.funct.toNat with
  | 0x20 | 0x21 => some .add
  | 0x22 | 0x23 => some .sub
  | 0x24 => some .and
  | 0x25 => some .or
  | 0x26 => some .xor
  | 0x27 => some .nor
  | 0x2A => some .slt
  | 0x2B => some .sltu
  | 0x2C => some .max
  | 0x2D => some .min
  | _ => none

/-- The host operation and operand of arithmetic with an immediate; none for a load of the upper
half. -/
def Instr.immediateOp? (i : Instr) : Option (AluOp × UInt32) :=
  let signed := i.offset.toUInt32
  let unsigned := i.immediate
  match i.major.toNat with
  | 0x08 | 0x09 => some (.add, signed)
  | 0x0A => some (.slt, signed)
  | 0x0B => some (.sltu, signed)
  | 0x0C => some (.and, unsigned)
  | 0x0D => some (.or, unsigned)
  | 0x0E => some (.xor, unsigned)
  | _ => none

/-- The product that an instruction computes, if it does, and whether it adds to the old one. -/
def Instr.product? (i : Instr) : Option (MulKind × Bool) :=
  match i.funct.toNat with
  | 0x18 => some (.mult, false)
  | 0x19 => some (.multu, false)
  | 0x1C => some (.madd, true)
  | 0x1D => some (.maddu, true)
  | 0x2E => some (.msub, true)
  | 0x2F => some (.msubu, true)
  | _ => none

/-- The width of a scalar load or store, and whether it is a load. -/
def Instr.access (i : Instr) : Width × Bool :=
  match i.major.toNat with
  | 0x20 => (.byte, true)
  | 0x21 => (.half, true)
  | 0x23 => (.word, true)
  | 0x24 => (.byteUnsigned, true)
  | 0x25 => (.halfUnsigned, true)
  | 0x28 => (.byte, false)
  | 0x29 => (.half, false)
  | _ => (.word, false)

namespace Lowering

/-- A host register with the value of a general register. -/
def bindGpr (n : Fin 32) : Lowering HostReg := bind (.gpr n)

/-- A host register that becomes a general register. -/
def bindGprForWrite (n : Fin 32) : Lowering HostReg := bindForWrite (.gpr n)

/-! ### The interpreter as a fallback -/

/-- **Leave one instruction to the interpreter.**  The guest state is made current before it and is
read again after it.  What is known about modifiers follows from the family: an instruction that
uses them leaves none pending, a move may set any of them. -/
def interpret (i : Instr) (pc : UInt32) : Lowering Unit := do
  flushAll
  discardAll
  emit (.setPc pc)
  emit (.interpret i.word)
  if i.family.usesModifiers then updateModifiers fun _ => .identity
  else if i.family = .vectorMove then updateModifiers fun _ => .unknown

/-! ### Arithmetic -/

/-- Shifts and rotates. -/
def shift (i : Instr) : Lowering Unit := do
  if i.rd = 0 then return
  let rt ← bindGpr i.rt
  if i.bit 2 then
    let rs ← bindGpr i.rs
    let rd ← bindGprForWrite i.rd
    emit (.alu i.shiftOp rd rt rs)
  else
    let rd ← bindGprForWrite i.rd
    emit (.aluImm i.shiftOp rd rt i.shamt)

/-- Conditional moves.  The destination is an operand as well, since it may keep its value. -/
def conditionalMove (i : Instr) (condition : Condition) : Lowering Unit := do
  if i.rd = 0 then return
  let rs ← bindGpr i.rs
  let rt ← bindGpr i.rt
  let rd ← bindGpr i.rd
  emit (.compareImm rt 0)
  emit (.movIf condition rd rs)
  markDirty (.gpr i.rd)

/-- Three-register arithmetic other than conditional moves.  With both operands zero the result is
known. -/
def binary (i : Instr) (op : AluOp) : Lowering Unit := do
  if i.rd = 0 then return
  if i.rs = 0 ∧ i.rt = 0 then
    let rd ← bindGprForWrite i.rd
    emit (.movImm rd (op.apply 0 0))
  else
    let rs ← bindGpr i.rs
    let rt ← bindGpr i.rt
    let rd ← bindGprForWrite i.rd
    emit (.alu op rd rs rt)

/-- Three-register arithmetic. -/
def arithmetic (i : Instr) (pc : UInt32) : Lowering Unit :=
  match i.funct.toNat with
  | 0x0A => conditionalMove i .equal
  | 0x0B => conditionalMove i .notEqual
  | _ =>
    match i.arithmeticOp? with
    | some op => binary i op
    | none => interpret i pc

/-- A function of one register. -/
def unary (op : UnaryOp) (destination source : Fin 32) : Lowering Unit := do
  if destination = 0 then return
  let rs ← bindGpr source
  let rd ← bindGprForWrite destination
  emit (.unary op rd rs)

/-- Count leading zeros or ones. -/
def countLeading (i : Instr) : Lowering Unit :=
  unary (if i.funct == 0x16 then .clz else .clo) i.rd i.rs

/-- Extend a byte or a halfword. -/
def signExtend (i : Instr) : Lowering Unit :=
  unary (if i.shamt == 0x10 then .seb else .seh) i.rd i.rt

/-- Extract or insert a bit field. -/
def bitField (i : Instr) : Lowering Unit := do
  if i.rt = 0 then return
  let position := i.shamt
  let rs ← bindGpr i.rs
  if i.funct == 0 then
    let rt ← bindGprForWrite i.rt
    emit (.aluImm .srl rt rs position)
    emit (.aluImm .and rt rt (lowMask (i.rd.val + 1)))
  else
    let mask := lowMask (i.rd.val - position.toNat + 1) <<< position
    let rt ← bindGpr i.rt
    emit (.aluImm .sll HostReg.scratch rs position)
    emit (.aluImm .and HostReg.scratch HostReg.scratch mask)
    emit (.aluImm .and rt rt (~~~mask))
    emit (.alu .or rt rt HostReg.scratch)
    markDirty (.gpr i.rt)

/-- Arithmetic with an immediate.  With a zero operand the result is known. -/
def immediate (i : Instr) : Lowering Unit := do
  if i.rt = 0 then return
  match i.immediateOp? with
  | none =>
    let rt ← bindGprForWrite i.rt
    emit (.movImm rt (i.immediate <<< (16 : UInt32)))
  | some (op, operand) =>
    if i.rs = 0 then
      let rt ← bindGprForWrite i.rt
      emit (.movImm rt (op.apply 0 operand))
    else
      let rs ← bindGpr i.rs
      let rt ← bindGprForWrite i.rt
      emit (.aluImm op rt rs operand)

/-! ### Products -/

/-- Read one of the product registers. -/
def moveFromProduct (half : GuestReg) (destination : Fin 32) : Lowering Unit := do
  if destination = 0 then return
  let rs ← bind half
  let rd ← bindGprForWrite destination
  move rd rs

/-- Write one of the product registers. -/
def moveToProduct (half : GuestReg) (source : Fin 32) : Lowering Unit := do
  let rs ← bindGpr source
  let rd ← bindForWrite half
  move rd rs

/-- A product, which replaces the old one or is added to it. -/
def product (i : Instr) (kind : MulKind) (accumulates : Bool) : Lowering Unit := do
  let rs ← bindGpr i.rs
  let rt ← bindGpr i.rt
  if accumulates then
    let hi ← bind .hi
    let lo ← bind .lo
    emit (.multiply kind rs rt hi lo)
    markDirty .hi
    markDirty .lo
  else
    let hi ← bindForWrite .hi
    let lo ← bindForWrite .lo
    emit (.multiply kind rs rt hi lo)

/-- Products and the product registers.  Quotients are left to the interpreter. -/
def multiplyDivide (i : Instr) (pc : UInt32) : Lowering Unit :=
  match i.funct.toNat with
  | 0x10 => moveFromProduct .hi i.rd
  | 0x11 => moveToProduct .hi i.rs
  | 0x12 => moveFromProduct .lo i.rd
  | 0x13 => moveToProduct .lo i.rs
  | _ =>
    match i.product? with
    | some (kind, accumulates) => product i kind accumulates
    | none => interpret i pc

/-! ### Memory -/

/-- Scalar loads and stores.  A load into register zero is not done. -/
def access (i : Instr) : Lowering Unit := do
  let (width, loads) := i.access
  if loads then
    if i.rt = 0 then return
    let base ← bindGpr i.rs
    let rt ← bindGprForWrite i.rt
    emit (.load width rt base i.offset)
  else
    let rt ← bindGpr i.rt
    let base ← bindGpr i.rs
    emit (.store width rt base i.offset)

end Lowering

end Dynarec
