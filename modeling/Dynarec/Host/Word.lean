import Dynarec.Host.Operation

/-!
# Host words

Every host operation is one word of eight bytes: a tag, three operand bytes and a 32-bit immediate,
lowest byte first.  Exits and jumps are single words, so that an exit can be linked and unlinked by
replacing one word.
-/

namespace Dynarec

/-- **A host word.** -/
structure HostWord where
  tag : UInt8
  b1 : UInt8
  b2 : UInt8
  b3 : UInt8
  imm : UInt32
deriving DecidableEq, Repr, Inhabited

namespace HostWord

/-- Size of a word in bytes. -/
def byteSize : Nat := 8

/-- The bytes of a word in memory order. -/
def toBytes (w : HostWord) : List UInt8 := [w.tag, w.b1, w.b2, w.b3] ++ Encode.wordBytes w.imm

/-- The word made of bytes in memory order; bytes beyond the end count as zero. -/
def ofBytes (bytes : List UInt8) : HostWord :=
  let byte (n : Nat) : UInt32 := (bytes.getD n 0).toUInt32
  { tag := bytes.getD 0 0
    b1 := bytes.getD 1 0
    b2 := bytes.getD 2 0
    b3 := bytes.getD 3 0
    imm := byte 4 ||| byte 5 <<< (8 : UInt32) ||| byte 6 <<< (16 : UInt32) |||
      byte 7 <<< (24 : UInt32) }

/-! ### Operand bytes -/

/-- A register number as a byte. -/
def ofFin {n : Nat} (r : Fin n) : UInt8 := UInt8.ofNat r.val

/-- Two numbers below sixteen in one byte. -/
def pair (high low : Fin 16) : UInt8 := UInt8.ofNat (high.val * 16 + low.val)

/-- The upper half of a byte. -/
def high (b : UInt8) : Fin 16 := Fin.ofNat 16 (b >>> 4).toNat

/-- The lower half of a byte. -/
def low (b : UInt8) : Fin 16 := Fin.ofNat 16 b.toNat

/-- An integer register; higher bits do not count. -/
def reg (b : UInt8) : HostReg := Fin.ofNat 16 b.toNat

/-- A float register; higher bits do not count. -/
def floatReg (b : UInt8) : FloatReg := Fin.ofNat 32 b.toNat

/-- A quad register; higher bits do not count. -/
def quadReg (b : UInt8) : QuadReg := Fin.ofNat 8 b.toNat

/-- The place of a value in the list of all values, as its code. -/
def codeIn {α : Type} [BEq α] (all : List α) (a : α) : UInt8 := UInt8.ofNat (all.idxOf a)

/-- The value with a code, if there is one. -/
def withCode? {α : Type} (all : List α) (code : UInt8) : Option α := all[code.toNat]?

end HostWord

namespace Operation

open HostWord

/-- **The word of an operation.** -/
def encode : Operation → HostWord
  | nop => ⟨0x00, 0, 0, 0, 0⟩
  | movImm rd imm => ⟨0x01, ofFin rd, 0, 0, imm⟩
  | mov rd rs => ⟨0x02, ofFin rd, ofFin rs, 0, 0⟩
  | loadGuest rd r => ⟨0x03, ofFin rd, UInt8.ofNat r.index, 0, 0⟩
  | storeGuest rs r => ⟨0x04, ofFin rs, UInt8.ofNat r.index, 0, 0⟩
  | alu op rd rs rt => ⟨0x05, codeIn AluOp.all op, pair rd rs, ofFin rt, 0⟩
  | aluImm op rd rs imm => ⟨0x06, codeIn AluOp.all op, pair rd rs, 0, imm⟩
  | unary op rd rs => ⟨0x07, codeIn UnaryOp.all op, pair rd rs, 0, 0⟩
  | multiply kind rs rt hi lo => ⟨0x08, codeIn MulKind.all kind, pair rs rt, pair hi lo, 0⟩
  | compare rs rt => ⟨0x09, ofFin rs, ofFin rt, 0, 0⟩
  | compareImm rs imm => ⟨0x0A, ofFin rs, 0, 0, imm⟩
  | setIf c rd => ⟨0x0B, codeIn Condition.all c, ofFin rd, 0, 0⟩
  | movIf c rd rs => ⟨0x0C, codeIn Condition.all c, ofFin rd, ofFin rs, 0⟩
  | load w rd base offset => ⟨0x0D, codeIn Width.all w, pair rd base, 0, offset.toUInt32⟩
  | store w rs base offset => ⟨0x0E, codeIn Width.all w, pair rs base, 0, offset.toUInt32⟩
  | saveFlags => ⟨0x0F, 0, 0, 0, 0⟩
  | restoreFlags => ⟨0x10, 0, 0, 0, 0⟩
  | jump target => ⟨0x11, 0, 0, 0, target⟩
  | jumpIf c target => ⟨0x12, codeIn Condition.all c, 0, 0, target⟩
  | subDowncount amount => ⟨0x13, 0, 0, 0, amount⟩
  | checkEntry inRegister pc => ⟨0x14, if inRegister then 1 else 0, 0, 0, pc⟩
  | setPc pc => ⟨0x15, 0, 0, 0, pc⟩
  | exitDispatch pc => ⟨0x16, 0, 0, 0, pc⟩
  | exitDispatchReg rs => ⟨0x17, ofFin rs, 0, 0, 0⟩
  | exitInterpret pc => ⟨0x18, 0, 0, 0, pc⟩
  | exitSyscall code next =>
    ⟨0x19, code.toUInt8, (code >>> 8).toUInt8, (code >>> 16).toUInt8, next⟩
  | exitBreak pc => ⟨0x1A, 0, 0, 0, pc⟩
  | interpret word => ⟨0x1B, 0, 0, 0, word⟩
  | guardModifiers pc => ⟨0x1C, 0, 0, 0, pc⟩
  | loadControl rd index => ⟨0x1D, ofFin rd, index, 0, 0⟩
  | storeControl rs index => ⟨0x1E, ofFin rs, index, 0, 0⟩
  | setControl index value => ⟨0x1F, index, 0, 0, value⟩
  | loadElement fd e => ⟨0x20, ofFin fd, e, 0, 0⟩
  | storeElement fs e => ⟨0x21, ofFin fs, e, 0, 0⟩
  | float op fd fs ft => ⟨0x22, codeIn FloatOp.all op, ofFin fd, ofFin fs, UInt32.ofNat ft.val⟩
  | floatUnary op fd fs => ⟨0x23, codeIn FloatUnary.all op, ofFin fd, ofFin fs, 0⟩
  | floatImm fd bits => ⟨0x24, ofFin fd, 0, 0, bits⟩
  | floatMov fd fs => ⟨0x25, ofFin fd, ofFin fs, 0, 0⟩
  | floatLoad fd base offset => ⟨0x26, ofFin fd, ofFin base, 0, offset.toUInt32⟩
  | floatStore fs base offset => ⟨0x27, ofFin fs, ofFin base, 0, offset.toUInt32⟩
  | floatCompare c lane rd fs ft =>
    ⟨0x28, pair lane c, ofFin rd, ofFin fs, UInt32.ofNat ft.val⟩
  | mergeConditions rd rs lanes => ⟨0x29, ofFin rd, ofFin rs, lanes, 0⟩
  | floatToInt rd fs => ⟨0x2A, ofFin rd, ofFin fs, 0, 0⟩
  | intToFloat fd rs => ⟨0x2B, ofFin fd, ofFin rs, 0, 0⟩
  | loadQuad qd r => ⟨0x30, ofFin qd, r, 0, 0⟩
  | storeQuad qs r => ⟨0x31, ofFin qs, r, 0, 0⟩
  | quad op qd qs qt => ⟨0x32, codeIn FloatOp.all op, ofFin qd, ofFin qs, UInt32.ofNat qt.val⟩
  | quadUnary op qd qs => ⟨0x33, codeIn FloatUnary.all op, ofFin qd, ofFin qs, 0⟩
  | quadImm qd bits => ⟨0x34, ofFin qd, 0, 0, bits⟩
  | quadLoad qd base offset => ⟨0x35, ofFin qd, ofFin base, 0, offset.toUInt32⟩
  | quadStore qs base offset => ⟨0x36, ofFin qs, ofFin base, 0, offset.toUInt32⟩

/-- **The operation of a word**, if its tag and its operation codes are known.  Bytes that the
operation does not use and the upper bits of register bytes are not looked at. -/
def decode? (w : HostWord) : Option Operation :=
  let ⟨tag, b1, b2, b3, imm⟩ := w
  let offset := imm.toInt32
  match tag.toNat with
  | 0x00 => some nop
  | 0x01 => some (movImm (reg b1) imm)
  | 0x02 => some (mov (reg b1) (reg b2))
  | 0x03 => (GuestReg.ofIndex? b2.toNat).map (loadGuest (reg b1))
  | 0x04 => (GuestReg.ofIndex? b2.toNat).map (storeGuest (reg b1))
  | 0x05 => (withCode? AluOp.all b1).map fun op => alu op (high b2) (low b2) (reg b3)
  | 0x06 => (withCode? AluOp.all b1).map fun op => aluImm op (high b2) (low b2) imm
  | 0x07 => (withCode? UnaryOp.all b1).map fun op => unary op (high b2) (low b2)
  | 0x08 =>
    (withCode? MulKind.all b1).map fun kind =>
      multiply kind (high b2) (low b2) (high b3) (low b3)
  | 0x09 => some (compare (reg b1) (reg b2))
  | 0x0A => some (compareImm (reg b1) imm)
  | 0x0B => (withCode? Condition.all b1).map fun c => setIf c (reg b2)
  | 0x0C => (withCode? Condition.all b1).map fun c => movIf c (reg b2) (reg b3)
  | 0x0D => (withCode? Width.all b1).map fun width => load width (high b2) (low b2) offset
  | 0x0E => (withCode? Width.all b1).map fun width => store width (high b2) (low b2) offset
  | 0x0F => some saveFlags
  | 0x10 => some restoreFlags
  | 0x11 => some (jump imm)
  | 0x12 => (withCode? Condition.all b1).map fun c => jumpIf c imm
  | 0x13 => some (subDowncount imm)
  | 0x14 => some (checkEntry (b1 != 0) imm)
  | 0x15 => some (setPc imm)
  | 0x16 => some (exitDispatch imm)
  | 0x17 => some (exitDispatchReg (reg b1))
  | 0x18 => some (exitInterpret imm)
  | 0x19 =>
    some (exitSyscall (b1.toUInt32 ||| b2.toUInt32 <<< (8 : UInt32) |||
      b3.toUInt32 <<< (16 : UInt32)) imm)
  | 0x1A => some (exitBreak imm)
  | 0x1B => some (interpret imm)
  | 0x1C => some (guardModifiers imm)
  | 0x1D => some (loadControl (reg b1) b2)
  | 0x1E => some (storeControl (reg b1) b2)
  | 0x1F => some (setControl b1 imm)
  | 0x20 => some (loadElement (floatReg b1) b2)
  | 0x21 => some (storeElement (floatReg b1) b2)
  | 0x22 =>
    (withCode? FloatOp.all b1).map fun op =>
      float op (floatReg b2) (floatReg b3) (floatReg imm.toUInt8)
  | 0x23 => (withCode? FloatUnary.all b1).map fun op => floatUnary op (floatReg b2) (floatReg b3)
  | 0x24 => some (floatImm (floatReg b1) imm)
  | 0x25 => some (floatMov (floatReg b1) (floatReg b2))
  | 0x26 => some (floatLoad (floatReg b1) (reg b2) offset)
  | 0x27 => some (floatStore (floatReg b1) (reg b2) offset)
  | 0x28 => some (floatCompare (low b1) (high b1) (reg b2) (floatReg b3) (floatReg imm.toUInt8))
  | 0x29 => some (mergeConditions (reg b1) (reg b2) b3)
  | 0x2A => some (floatToInt (reg b1) (floatReg b2))
  | 0x2B => some (intToFloat (floatReg b1) (reg b2))
  | 0x30 => some (loadQuad (quadReg b1) b2)
  | 0x31 => some (storeQuad (quadReg b1) b2)
  | 0x32 =>
    (withCode? FloatOp.all b1).map fun op =>
      quad op (quadReg b2) (quadReg b3) (quadReg imm.toUInt8)
  | 0x33 => (withCode? FloatUnary.all b1).map fun op => quadUnary op (quadReg b2) (quadReg b3)
  | 0x34 => some (quadImm (quadReg b1) imm)
  | 0x35 => some (quadLoad (quadReg b1) (reg b2) offset)
  | 0x36 => some (quadStore (quadReg b1) (reg b2) offset)
  | _ => none

end Operation

end Dynarec
