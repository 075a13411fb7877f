import Dynarec.Guest.Vector

/-!
# Instruction words and their families

An instruction is a 32-bit word.  `Instr` gives its fields by name; `Instr.family` sorts every word
into one of the families that the interpreter and the compiler dispatch on, `Family.unknown`
being the words that the core cannot execute.
-/

namespace Dynarec

/-- **Instruction families.**  All words of a family are executed and compiled by one rule. -/
inductive Family where
  /-- Shifts and rotates by a constant or a register. -/
  | shift
  /-- Three-register arithmetic, logic, compares and conditional moves. -/
  | arithmetic
  /-- Count leading zeros or ones. -/
  | countLeading
  /-- Multiply, divide, and moves from and to the product registers. -/
  | multiplyDivide
  /-- Extend a byte or a halfword with its sign. -/
  | signExtend
  /-- Extract or insert a bit field. -/
  | bitField
  /-- Arithmetic and logic with an immediate. -/
  | immediate
  /-- Scalar loads and stores. -/
  | memory
  /-- Branches comparing one or two registers. -/
  | branch
  /-- Branches on the sign of a register, with or without link. -/
  | branchSign
  /-- Jumps within the region of the delay slot. -/
  | jump
  /-- Jumps to the address in a register. -/
  | jumpRegister
  /-- Request to the system. -/
  | syscall
  /-- Stop the core. -/
  | breakpoint
  /-- No effect on this core. -/
  | sync
  /-- Branches on a bit of the condition word. -/
  | vectorBranch
  /-- Set a pending modifier. -/
  | vectorModifier
  /-- Lane-wise arithmetic on two vectors. -/
  | vectorBinary
  /-- Lane-wise functions of one vector, and constants. -/
  | vectorUnary
  /-- Lane-wise compares. -/
  | vectorCompare
  /-- Load or store one element. -/
  | elementMemory
  /-- Load or store four elements. -/
  | quadMemory
  /-- Moves between the scalar and the vector unit. -/
  | vectorMove
  /-- Words that the core cannot execute. -/
  | unknown
deriving DecidableEq, Repr, Inhabited

namespace Family

/-- Ends a block. -/
def isTerminator : Family → Bool
  | branch | branchSign | jump | jumpRegister | syscall | breakpoint | vectorBranch => true
  | _ => false

/-- A terminator whose next instruction still runs. -/
def hasDelaySlot : Family → Bool
  | branch | branchSign | jump | jumpRegister | vectorBranch => true
  | _ => false

/-- Uses up the pending modifiers. -/
def usesModifiers : Family → Bool
  | vectorBinary | vectorUnary | vectorCompare => true
  | _ => false

end Family

/-- A word of 16 bits as a signed number. -/
def signExtend16 (w : UInt32) : Int32 := w.toUInt16.toInt16.toInt32

/-- A word of 8 bits as a signed number. -/
def signExtend8 (w : UInt32) : Int32 := w.toUInt8.toInt8.toInt32

/-- **An instruction word.** -/
structure Instr where
  word : UInt32
deriving DecidableEq, Repr, Inhabited

namespace Instr

/-! ### Scalar fields -/

/-- The bits of a field: the word shifted down to `position`, under a mask. -/
def bits (i : Instr) (position mask : UInt32) : UInt32 := i.word >>> position &&& mask

/-- Bit `n` of the word. -/
def bit (i : Instr) (n : UInt32) : Bool := i.bits n 1 != 0

/-- Major operation, the highest six bits. -/
def major (i : Instr) : UInt32 := i.word >>> 26

/-- First source register. -/
def rs (i : Instr) : Fin 32 := Fin.ofNat 32 (i.word >>> 21).toNat

/-- Second source register, or destination of immediate forms. -/
def rt (i : Instr) : Fin 32 := Fin.ofNat 32 (i.word >>> 16).toNat

/-- Destination register. -/
def rd (i : Instr) : Fin 32 := Fin.ofNat 32 (i.word >>> 11).toNat

/-- Shift amount, also the position of a bit field. -/
def shamt (i : Instr) : UInt32 := i.bits 6 0x1F

/-- Function code, the lowest six bits. -/
def funct (i : Instr) : UInt32 := i.bits 0 0x3F

/-- Immediate without sign. -/
def immediate (i : Instr) : UInt32 := i.bits 0 0xFFFF

/-- Immediate with sign. -/
def offset (i : Instr) : Int32 := signExtend16 i.word

/-- Code of a system request or a stop. -/
def code (i : Instr) : UInt32 := i.bits 6 0xFFFFF

/-- Target of a branch at `pc`: the offset counts instructions from the delay slot. -/
def branchTarget (i : Instr) (pc : UInt32) : UInt32 := pc + 4 + (i.offset * 4).toUInt32

/-- Target of a region jump at `pc`: the upper four bits are those of the delay slot. -/
def jumpTarget (i : Instr) (pc : UInt32) : UInt32 :=
  (pc + 4) &&& 0xF0000000 ||| i.bits 0 0x03FFFFFF <<< (2 : UInt32)

/-! ### Vector fields -/

/-- Destination vector register. -/
def vd (i : Instr) : UInt8 := (i.bits 0 0x7F).toUInt8

/-- First source vector register. -/
def vs (i : Instr) : UInt8 := (i.bits 8 0x7F).toUInt8

/-- Second source vector register. -/
def vt (i : Instr) : UInt8 := (i.bits 16 0x7F).toUInt8

/-- Size, from two separate bits. -/
def vectorSize (i : Instr) : VectorSize :=
  VectorSize.ofBits (i.bits 7 1 ||| i.bits 14 2)

/-- Sub-operation of the three-operand vector groups. -/
def vectorSubop (i : Instr) : UInt32 := i.bits 23 7

/-- Vector register of a one-element load or store. -/
def elementReg (i : Instr) : UInt8 := (i.bits 16 0x1F ||| i.bits 0 3 <<< (5 : UInt32)).toUInt8

/-- Vector register of a four-element load or store. -/
def quadReg (i : Instr) : UInt8 := (i.bits 16 0x1F ||| i.bits 0 1 <<< (5 : UInt32)).toUInt8

/-- Offset of a vector load or store, a multiple of four. -/
def vectorOffset (i : Instr) : Int32 := signExtend16 (i.word &&& 0xFFFC)

/-- Function selector of the two-operand vector group. -/
def unaryCode (i : Instr) : UInt32 := i.bits 16 0x1F

/-- Register selector of a move between the units: an element below 128, else a control
register. -/
def moveSelector (i : Instr) : UInt32 := i.bits 0 0xFF

/-- The control register of a move whose selector is not an element. -/
def moveControl (i : Instr) : Fin 16 := Fin.ofNat 16 i.moveSelector.toNat

/-- A move goes from the scalar to the vector unit. -/
def movesToVector (i : Instr) : Bool := i.rs == 7

/-! ### Classification -/

/-- Words of major operation zero, by function code. -/
def familySpecial (i : Instr) : Family :=
  match i.funct.toNat with
  | 0x00 | 0x02 | 0x03 | 0x04 | 0x06 | 0x07 => .shift
  | 0x08 | 0x09 => .jumpRegister
  | 0x0A | 0x0B => .arithmetic
  | 0x0C => .syscall
  | 0x0D => .breakpoint
  | 0x0F => .sync
  | 0x10 | 0x11 | 0x12 | 0x13 => .multiplyDivide
  | 0x18 | 0x19 | 0x1A | 0x1B | 0x1C | 0x1D | 0x2E | 0x2F => .multiplyDivide
  | 0x16 | 0x17 => .countLeading
  | 0x20 | 0x21 | 0x22 | 0x23 | 0x24 | 0x25 | 0x26 | 0x27 => .arithmetic
  | 0x2A | 0x2B | 0x2C | 0x2D => .arithmetic
  | _ => .unknown

/-- Words of major operation one, by the selector in place of the second source. -/
def familySign (i : Instr) : Family :=
  match i.rt.val with
  | 0x00 | 0x01 | 0x02 | 0x03 | 0x10 | 0x11 | 0x12 | 0x13 => .branchSign
  | _ => .unknown

/-- Moves and branches of the vector unit. -/
def familyVectorControl (i : Instr) : Family :=
  match i.rs.val with
  | 0x03 | 0x07 => .vectorMove
  | 0x08 => .vectorBranch
  | _ => .unknown

/-- Bit-field and sign-extension words. -/
def familyBits (i : Instr) : Family :=
  match i.funct.toNat with
  | 0x00 | 0x04 => .bitField
  | 0x20 => if i.shamt == 0x10 || i.shamt == 0x18 then .signExtend else .unknown
  | _ => .unknown

/-- The two-operand vector group. -/
def familyUnary (i : Instr) : Family :=
  if i.rs == 0 then
    match i.unaryCode.toNat with
    | 0 | 1 | 2 | 4 | 5 | 6 | 7 => .vectorUnary
    | _ => .unknown
  else .unknown

/-- **The family of a word.** -/
def family (i : Instr) : Family :=
  match i.major.toNat with
  | 0x00 => i.familySpecial
  | 0x01 => i.familySign
  | 0x02 | 0x03 => .jump
  | 0x04 | 0x05 | 0x06 | 0x07 | 0x14 | 0x15 | 0x16 | 0x17 => .branch
  | 0x08 | 0x09 | 0x0A | 0x0B | 0x0C | 0x0D | 0x0E | 0x0F => .immediate
  | 0x12 => i.familyVectorControl
  | 0x18 =>
    match i.vectorSubop.toNat with
    | 0 | 1 | 7 => .vectorBinary
    | _ => .unknown
  | 0x19 => if i.vectorSubop == 0 then .vectorBinary else .unknown
  | 0x1B =>
    match i.vectorSubop.toNat with
    | 0 => .vectorCompare
    | 2 | 3 => .vectorBinary
    | _ => .unknown
  | 0x1F => i.familyBits
  | 0x20 | 0x21 | 0x23 | 0x24 | 0x25 | 0x28 | 0x29 | 0x2B => .memory
  | 0x32 | 0x3A => .elementMemory
  | 0x36 | 0x3E => .quadMemory
  | 0x34 => i.familyUnary
  | 0x37 => if i.bits 24 3 == 3 then .unknown else .vectorModifier
  | _ => .unknown

end Instr

end Dynarec
