import Dynarec.Guest.Interpreter
import Dynarec.Proofs.Guest.Fields

/-!
# Mnemonics

The mnemonics of a format differ in one code of the word and in one function of the operands.  For
every group stand here its words (`encode`), the code that tells its members apart, and the function
that a member computes, which is said without looking at any word.
-/

namespace Dynarec

namespace Mnemonic

/-! ### Mnemonics by group -/

/-- Shifts by a constant. -/
inductive Shift where
  | sll
  | srl
  | rotr
  | sra
deriving DecidableEq, Repr

namespace Shift

def encode : Shift → UInt32 → UInt32 → UInt32 → UInt32
  | sll => Encode.sll
  | srl => Encode.srl
  | rotr => Encode.rotr
  | sra => Encode.sra

/-- The register field tells a rotate from a shift. -/
def selector : Shift → Fin 32
  | rotr => 1
  | _ => 0

def funct : Shift → UInt32
  | sll => 0x00
  | srl | rotr => 0x02
  | sra => 0x03

def apply : Shift → UInt32 → UInt32 → UInt32
  | sll => fun value amount => value <<< amount
  | srl => fun value amount => value >>> amount
  | rotr => rotateRight
  | sra => shiftRightSigned

theorem encode_eq (op : Shift) (rd rt shamt : UInt32) :
    op.encode rd rt shamt = Encode.register (operand op.selector) rt rd shamt op.funct := by
  cases op <;> rfl

end Shift

/-- Shifts by a register. -/
inductive ShiftBy where
  | sllv
  | srlv
  | srav
deriving DecidableEq, Repr

namespace ShiftBy

def encode : ShiftBy → UInt32 → UInt32 → UInt32 → UInt32
  | sllv => Encode.sllv
  | srlv => Encode.srlv
  | srav => Encode.srav

def funct : ShiftBy → UInt32
  | sllv => 0x04
  | srlv => 0x06
  | srav => 0x07

def apply : ShiftBy → UInt32 → UInt32 → UInt32
  | sllv => fun value amount => value <<< amount
  | srlv => fun value amount => value >>> amount
  | srav => shiftRightSigned

theorem encode_eq (op : ShiftBy) (rd rt rs : UInt32) :
    op.encode rd rt rs = Encode.register rs rt rd 0 op.funct := by
  cases op <;> rfl

end ShiftBy

/-- Arithmetic, logic, compares and conditional moves of three registers. -/
inductive Arithmetic where
  | movz
  | movn
  | add
  | addu
  | sub
  | subu
  | and
  | or
  | xor
  | nor
  | slt
  | sltu
  | max
  | min
deriving DecidableEq, Repr

namespace Arithmetic

def encode : Arithmetic → UInt32 → UInt32 → UInt32 → UInt32
  | movz => Encode.movz
  | movn => Encode.movn
  | add => Encode.add
  | addu => Encode.addu
  | sub => Encode.sub
  | subu => Encode.subu
  | and => Encode.and
  | or => Encode.or
  | xor => Encode.xor
  | nor => Encode.nor
  | slt => Encode.slt
  | sltu => Encode.sltu
  | max => Encode.max
  | min => Encode.min

def funct : Arithmetic → UInt32
  | movz => 0x0A
  | movn => 0x0B
  | add => 0x20
  | addu => 0x21
  | sub => 0x22
  | subu => 0x23
  | and => 0x24
  | or => 0x25
  | xor => 0x26
  | nor => 0x27
  | slt => 0x2A
  | sltu => 0x2B
  | max => 0x2C
  | min => 0x2D

/-- The value for the destination; a conditional move may have none. -/
def result : Arithmetic → UInt32 → UInt32 → Option UInt32
  | movz => fun a b => if b = 0 then some a else none
  | movn => fun a b => if b = 0 then none else some a
  | add | addu => fun a b => some (a + b)
  | sub | subu => fun a b => some (a - b)
  | and => fun a b => some (a &&& b)
  | or => fun a b => some (a ||| b)
  | xor => fun a b => some (a ^^^ b)
  | nor => fun a b => some (~~~(a ||| b))
  | slt => fun a b => some (flagWord (signedLess a b))
  | sltu => fun a b => some (flagWord (decide (a < b)))
  | max => fun a b => some (signedMax a b)
  | min => fun a b => some (signedMin a b)

theorem encode_eq (op : Arithmetic) (rd rs rt : UInt32) :
    op.encode rd rs rt = Encode.register rs rt rd 0 op.funct := by
  cases op <;> rfl

end Arithmetic

/-- Counts of leading bits. -/
inductive Leading where
  | clz
  | clo
deriving DecidableEq, Repr

namespace Leading

def encode : Leading → UInt32 → UInt32 → UInt32
  | clz => Encode.clz
  | clo => Encode.clo

def funct : Leading → UInt32
  | clz => 0x16
  | clo => 0x17

def apply : Leading → UInt32 → UInt32
  | clz => leadingZeros
  | clo => leadingOnes

theorem encode_eq (op : Leading) (rd rs : UInt32) :
    op.encode rd rs = Encode.register rs 0 rd 0 op.funct := by
  cases op <;> rfl

end Leading

/-- Products and quotients. -/
inductive Product where
  | mult
  | multu
  | div
  | divu
  | madd
  | maddu
  | msub
  | msubu
deriving DecidableEq, Repr

namespace Product

def encode : Product → UInt32 → UInt32 → UInt32
  | mult => Encode.mult
  | multu => Encode.multu
  | div => Encode.div
  | divu => Encode.divu
  | madd => Encode.madd
  | maddu => Encode.maddu
  | msub => Encode.msub
  | msubu => Encode.msubu

def funct : Product → UInt32
  | mult => 0x18
  | multu => 0x19
  | div => 0x1A
  | divu => 0x1B
  | madd => 0x1C
  | maddu => 0x1D
  | msub => 0x2E
  | msubu => 0x2F

/-- Both halves of the result, the upper one first, from the old halves and two factors. -/
def apply : Product → UInt64 → UInt32 → UInt32 → UInt32 × UInt32
  | mult => fun _ a b => halves (signedProduct a b)
  | multu => fun _ a b => halves (unsignedProduct a b)
  | div => fun _ a b => (divideSigned a b).swap
  | divu => fun _ a b => (divideUnsigned a b).swap
  | madd => fun old a b => halves (old + signedProduct a b)
  | maddu => fun old a b => halves (old + unsignedProduct a b)
  | msub => fun old a b => halves (old - signedProduct a b)
  | msubu => fun old a b => halves (old - unsignedProduct a b)
where
  /-- A number as two words, the upper one first. -/
  halves (value : UInt64) : UInt32 × UInt32 := ((value >>> 32).toUInt32, value.toUInt32)

theorem encode_eq (op : Product) (rs rt : UInt32) :
    op.encode rs rt = Encode.register rs rt 0 0 op.funct := by
  cases op <;> rfl

end Product

/-- The halves of a product, which have moves of their own. -/
inductive Half where
  | hi
  | lo
deriving DecidableEq, Repr

namespace Half

def encodeFrom : Half → UInt32 → UInt32
  | hi => Encode.mfhi
  | lo => Encode.mflo

def encodeTo : Half → UInt32 → UInt32
  | hi => Encode.mthi
  | lo => Encode.mtlo

def functFrom : Half → UInt32
  | hi => 0x10
  | lo => 0x12

def functTo : Half → UInt32
  | hi => 0x11
  | lo => 0x13

/-- The half as a register of the core. -/
def reg : Half → GuestReg
  | hi => .hi
  | lo => .lo

theorem encodeFrom_eq (op : Half) (rd : UInt32) :
    op.encodeFrom rd = Encode.register 0 0 rd 0 op.functFrom := by
  cases op <;> rfl

theorem encodeTo_eq (op : Half) (rs : UInt32) :
    op.encodeTo rs = Encode.register rs 0 0 0 op.functTo := by
  cases op <;> rfl

end Half

/-- Extensions with the sign. -/
inductive Extend where
  | seb
  | seh
deriving DecidableEq, Repr

namespace Extend

def encode : Extend → UInt32 → UInt32 → UInt32
  | seb => Encode.seb
  | seh => Encode.seh

def selector : Extend → Fin 32
  | seb => 0x10
  | seh => 0x18

def apply : Extend → UInt32 → UInt32
  | seb => fun a => (signExtend8 a).toUInt32
  | seh => fun a => (signExtend16 a).toUInt32

theorem encode_eq (op : Extend) (rd rt : UInt32) :
    op.encode rd rt =
      Encode.major 0x1F ||| Encode.register 0 rt rd (operand op.selector) 0x20 := by
  cases op <;> rfl

end Extend

/-- Arithmetic with a signed immediate. -/
inductive Signed where
  | addi
  | addiu
  | slti
  | sltiu
deriving DecidableEq, Repr

namespace Signed

def encode : Signed → UInt32 → UInt32 → UInt32 → UInt32
  | addi => Encode.addi
  | addiu => Encode.addiu
  | slti => Encode.slti
  | sltiu => Encode.sltiu

def major : Signed → UInt32
  | addi => 0x08
  | addiu => 0x09
  | slti => 0x0A
  | sltiu => 0x0B

def apply : Signed → UInt32 → UInt32 → UInt32
  | addi | addiu => fun a v => a + v
  | slti => fun a v => flagWord (signedLess a v)
  | sltiu => fun a v => flagWord (decide (a < v))

theorem encode_eq (op : Signed) (rt rs value : UInt32) :
    op.encode rt rs value = Encode.withImmediate op.major rs rt value := by
  cases op <;> rfl

end Signed

/-- Logic with an immediate. -/
inductive Logic where
  | andi
  | ori
  | xori
deriving DecidableEq, Repr

namespace Logic

def encode : Logic → UInt32 → UInt32 → UInt32 → UInt32
  | andi => Encode.andi
  | ori => Encode.ori
  | xori => Encode.xori

def major : Logic → UInt32
  | andi => 0x0C
  | ori => 0x0D
  | xori => 0x0E

def apply : Logic → UInt32 → UInt32 → UInt32
  | andi => fun a v => a &&& v
  | ori => fun a v => a ||| v
  | xori => fun a v => a ^^^ v

theorem encode_eq (op : Logic) (rt rs value : UInt32) :
    op.encode rt rs value = Encode.withImmediate op.major rs rt value := by
  cases op <;> rfl

end Logic

/-- Scalar loads. -/
inductive Load where
  | lb
  | lh
  | lw
  | lbu
  | lhu
deriving DecidableEq, Repr

namespace Load

def encode : Load → UInt32 → UInt32 → UInt32 → UInt32
  | lb => Encode.lb
  | lh => Encode.lh
  | lw => Encode.lw
  | lbu => Encode.lbu
  | lhu => Encode.lhu

def major : Load → UInt32
  | lb => 0x20
  | lh => 0x21
  | lw => 0x23
  | lbu => 0x24
  | lhu => 0x25

def read : Load → Memory → UInt32 → UInt32
  | lb => fun memory a => (signExtend8 (memory.read8 a)).toUInt32
  | lh => fun memory a => (signExtend16 (memory.read16 a)).toUInt32
  | lw => Memory.read32
  | lbu => Memory.read8
  | lhu => Memory.read16

theorem encode_eq (op : Load) (rt rs offset : UInt32) :
    op.encode rt rs offset = Encode.withImmediate op.major rs rt offset := by
  cases op <;> rfl

end Load

/-- Scalar stores. -/
inductive Store where
  | sb
  | sh
  | sw
deriving DecidableEq, Repr

namespace Store

def encode : Store → UInt32 → UInt32 → UInt32 → UInt32
  | sb => Encode.sb
  | sh => Encode.sh
  | sw => Encode.sw

def major : Store → UInt32
  | sb => 0x28
  | sh => 0x29
  | sw => 0x2B

def write : Store → Memory → UInt32 → UInt32 → Except Violation Memory
  | sb => Memory.write8
  | sh => Memory.write16
  | sw => Memory.write32

theorem encode_eq (op : Store) (rt rs offset : UInt32) :
    op.encode rt rs offset = Encode.withImmediate op.major rs rt offset := by
  cases op <;> rfl

end Store

/-- Branches that compare two registers. -/
inductive Compare where
  | beq
  | bne
  | beql
  | bnel
deriving DecidableEq, Repr

namespace Compare

def encode : Compare → UInt32 → UInt32 → UInt32 → UInt32
  | beq => Encode.beq
  | bne => Encode.bne
  | beql => Encode.beql
  | bnel => Encode.bnel

def major : Compare → UInt32
  | beq => 0x04
  | bne => 0x05
  | beql => 0x14
  | bnel => 0x15

def taken : Compare → UInt32 → UInt32 → Bool
  | beq | beql => fun a b => a == b
  | bne | bnel => fun a b => a != b

def likely : Compare → Bool
  | beq | bne => false
  | beql | bnel => true

theorem encode_eq (op : Compare) (rs rt offset : UInt32) :
    op.encode rs rt offset = Encode.withImmediate op.major rs rt offset := by
  cases op <;> rfl

end Compare

/-- Branches that compare a register with zero, under a major operation of their own. -/
inductive CompareZero where
  | blez
  | bgtz
  | blezl
  | bgtzl
deriving DecidableEq, Repr

namespace CompareZero

def encode : CompareZero → UInt32 → UInt32 → UInt32
  | blez => Encode.blez
  | bgtz => Encode.bgtz
  | blezl => Encode.blezl
  | bgtzl => Encode.bgtzl

def major : CompareZero → UInt32
  | blez => 0x06
  | bgtz => 0x07
  | blezl => 0x16
  | bgtzl => 0x17

def taken : CompareZero → UInt32 → Bool
  | blez | blezl => fun a => !signedLess 0 a
  | bgtz | bgtzl => fun a => signedLess 0 a

def likely : CompareZero → Bool
  | blez | bgtz => false
  | blezl | bgtzl => true

theorem encode_eq (op : CompareZero) (rs offset : UInt32) :
    op.encode rs offset = Encode.withImmediate op.major rs 0 offset := by
  cases op <;> rfl

end CompareZero

/-- Branches on the sign of a register. -/
inductive Sign where
  | bltz
  | bgez
  | bltzl
  | bgezl
  | bltzal
  | bgezal
  | bltzall
  | bgezall
deriving DecidableEq, Repr

namespace Sign

def encode : Sign → UInt32 → UInt32 → UInt32
  | bltz => Encode.bltz
  | bgez => Encode.bgez
  | bltzl => Encode.bltzl
  | bgezl => Encode.bgezl
  | bltzal => Encode.bltzal
  | bgezal => Encode.bgezal
  | bltzall => Encode.bltzall
  | bgezall => Encode.bgezall

/-- The selector in place of a second register. -/
def selector : Sign → Fin 32
  | bltz => 0x00
  | bgez => 0x01
  | bltzl => 0x02
  | bgezl => 0x03
  | bltzal => 0x10
  | bgezal => 0x11
  | bltzall => 0x12
  | bgezall => 0x13

def taken : Sign → UInt32 → Bool
  | bltz | bltzl | bltzal | bltzall => fun a => signedLess a 0
  | bgez | bgezl | bgezal | bgezall => fun a => !signedLess a 0

def likely : Sign → Bool
  | bltz | bgez | bltzal | bgezal => false
  | bltzl | bgezl | bltzall | bgezall => true

def links : Sign → Bool
  | bltz | bgez | bltzl | bgezl => false
  | bltzal | bgezal | bltzall | bgezall => true

theorem encode_eq (op : Sign) (rs offset : UInt32) :
    op.encode rs offset = Encode.withImmediate 0x01 rs (operand op.selector) offset := by
  cases op <;> rfl

end Sign

/-- Branches on a bit of the condition word. -/
inductive Condition where
  | bvf
  | bvt
  | bvfl
  | bvtl
deriving DecidableEq, Repr

namespace Condition

def encode : Condition → UInt32 → UInt32 → UInt32
  | bvf => Encode.bvf
  | bvt => Encode.bvt
  | bvfl => Encode.bvfl
  | bvtl => Encode.bvtl

/-- The value of the bit for which the branch is taken. -/
def expected : Condition → Bool
  | bvf | bvfl => false
  | bvt | bvtl => true

def likely : Condition → Bool
  | bvf | bvt => false
  | bvfl | bvtl => true

theorem encode_eq (op : Condition) (bit offset : UInt32) :
    op.encode bit offset =
      Encode.vectorBranch bit (flagWord op.expected) (flagWord op.likely) offset := by
  cases op <;> rfl

end Condition

/-- Lane-wise functions of two vectors. -/
inductive VectorBinary where
  | vadd
  | vsub
  | vdiv
  | vmul
  | vmin
  | vmax
deriving DecidableEq, Repr

namespace VectorBinary

def encode : VectorBinary → VectorSize → UInt8 → UInt8 → UInt8 → UInt32
  | vadd => Encode.vadd
  | vsub => Encode.vsub
  | vdiv => Encode.vdiv
  | vmul => Encode.vmul
  | vmin => Encode.vmin
  | vmax => Encode.vmax

def major : VectorBinary → UInt32
  | vadd | vsub | vdiv => 0x18
  | vmul => 0x19
  | vmin | vmax => 0x1B

def subop : VectorBinary → UInt32
  | vadd | vmul => 0
  | vsub => 1
  | vdiv => 7
  | vmin => 2
  | vmax => 3

def apply : VectorBinary → Single → Single → Single
  | vadd => Single.add
  | vsub => Single.sub
  | vdiv => Single.div
  | vmul => Single.mul
  | vmin => Single.min
  | vmax => Single.max

theorem encode_eq (op : VectorBinary) (size : VectorSize) (vd vs vt : UInt8) :
    op.encode size vd vs vt = Encode.vectorThree op.major op.subop size vd vs vt := by
  cases op <;> rfl

end VectorBinary

/-- Lane-wise functions of one vector. -/
inductive VectorUnary where
  | vmov
  | vabs
  | vneg
  | vsat0
  | vsat1
deriving DecidableEq, Repr

namespace VectorUnary

def encode : VectorUnary → VectorSize → UInt8 → UInt8 → UInt32
  | vmov => Encode.vmov
  | vabs => Encode.vabs
  | vneg => Encode.vneg
  | vsat0 => Encode.vsat0
  | vsat1 => Encode.vsat1

def code : VectorUnary → UInt32
  | vmov => 0
  | vabs => 1
  | vneg => 2
  | vsat0 => 4
  | vsat1 => 5

def apply : VectorUnary → Single → Single
  | vmov => id
  | vabs => Single.abs
  | vneg => Single.neg
  | vsat0 => Single.clampUnit
  | vsat1 => Single.clampSigned

theorem encode_eq (op : VectorUnary) (size : VectorSize) (vd vs : UInt8) :
    op.encode size vd vs = Encode.vectorTwo op.code size vd vs := by
  cases op <;> rfl

end VectorUnary

/-- Vectors of one constant. -/
inductive VectorConstant where
  | vzero
  | vone
deriving DecidableEq, Repr

namespace VectorConstant

def encode : VectorConstant → VectorSize → UInt8 → UInt32
  | vzero => Encode.vzero
  | vone => Encode.vone

def code : VectorConstant → UInt32
  | vzero => 6
  | vone => 7

def value : VectorConstant → Single
  | vzero => Single.zero
  | vone => Single.one

theorem encode_eq (op : VectorConstant) (size : VectorSize) (vd : UInt8) :
    op.encode size vd = Encode.vectorTwo op.code size vd 0 := by
  cases op <;> rfl

end VectorConstant

/-- Setting a pending modifier has one mnemonic for each slot. -/
def setModifier : ModifierSlot → UInt32 → UInt32
  | .source => Encode.vpfxs
  | .target => Encode.vpfxt
  | .destination => Encode.vpfxd

end Mnemonic

end Dynarec
