import Dynarec.Guest.Vector

/-!
# Encoding instructions

One function per mnemonic gives the instruction word for its operands.  Register operands are
register numbers of which the low bits count; branch offsets count instructions from the delay
slot; vector registers are made by `column`, `row`, `quad` and `single`.  The words are those that
`Instr` takes apart again.
-/

namespace Dynarec.Encode

/-! ### Formats -/

/-- The bits of a value under a mask, moved up to a position. -/
def bitsAt (value mask position : UInt32) : UInt32 := (value &&& mask) <<< position

/-- A major operation. -/
def major (operation : UInt32) : UInt32 := operation <<< 26

/-- Three registers, a shift amount and a function code. -/
def register (rs rt rd shamt funct : UInt32) : UInt32 :=
  bitsAt rs 0x1F 21 ||| bitsAt rt 0x1F 16 ||| bitsAt rd 0x1F 11 ||| bitsAt shamt 0x1F 6 ||| funct

/-- A major operation, two registers and sixteen bits. -/
def withImmediate (operation rs rt value : UInt32) : UInt32 :=
  major operation ||| bitsAt rs 0x1F 21 ||| bitsAt rt 0x1F 16 ||| bitsAt value 0xFFFF 0

/-- A major operation and a region target. -/
def regionJump (operation target : UInt32) : UInt32 :=
  major operation ||| bitsAt (target >>> 2) 0x03FFFFFF 0

/-- A function code under a twenty-bit code. -/
def withCode (code funct : UInt32) : UInt32 := bitsAt code 0xFFFFF 6 ||| funct

/-- The two bits of a vector size, in their separate places. -/
def sizeBits (size : VectorSize) : UInt32 := bitsAt size.bits 1 7 ||| bitsAt (size.bits >>> 1) 1 15

/-- A register number of the vector unit as a field. -/
def vectorField (reg : UInt8) (position : UInt32) : UInt32 := bitsAt reg.toUInt32 0x7F position

/-- Three vector registers. -/
def vectorThree (operation subop : UInt32) (size : VectorSize) (vd vs vt : UInt8) : UInt32 :=
  major operation ||| bitsAt subop 7 23 ||| vectorField vt 16 ||| vectorField vs 8 |||
    vectorField vd 0 ||| sizeBits size

/-- Two vector registers. -/
def vectorTwo (code : UInt32) (size : VectorSize) (vd vs : UInt8) : UInt32 :=
  major 0x34 ||| bitsAt code 0x1F 16 ||| vectorField vs 8 ||| vectorField vd 0 ||| sizeBits size

/-- A load or store of vector elements; `low` masks the register bits that the register field
has no room for. -/
def vectorMemory (operation : UInt32) (vt : UInt8) (rs offset low : UInt32) : UInt32 :=
  major operation ||| bitsAt rs 0x1F 21 ||| bitsAt vt.toUInt32 0x1F 16 |||
    bitsAt offset 0xFFFC 0 ||| bitsAt (vt.toUInt32 >>> 5) low 0

/-- A move between the units. -/
def vectorMove (direction rt selector : UInt32) : UInt32 :=
  major 0x12 ||| bitsAt direction 0x1F 21 ||| bitsAt rt 0x1F 16 ||| selector

/-- A branch on a bit of the condition word. -/
def vectorBranch (bit expected likely offset : UInt32) : UInt32 :=
  major 0x12 ||| bitsAt 0x08 0x1F 21 ||| bitsAt bit 7 18 ||| bitsAt likely 1 17 |||
    bitsAt expected 1 16 ||| bitsAt offset 0xFFFF 0

/-! ### Shifts -/

/-- No operation, a shift of register zero. -/
def nop : UInt32 := 0

/-- Shift left. -/
def sll (rd rt shamt : UInt32) : UInt32 := register 0 rt rd shamt 0x00

/-- Shift right. -/
def srl (rd rt shamt : UInt32) : UInt32 := register 0 rt rd shamt 0x02

/-- Rotate right. -/
def rotr (rd rt shamt : UInt32) : UInt32 := register 1 rt rd shamt 0x02

/-- Shift right with sign. -/
def sra (rd rt shamt : UInt32) : UInt32 := register 0 rt rd shamt 0x03

/-- Shift left by a register. -/
def sllv (rd rt rs : UInt32) : UInt32 := register rs rt rd 0 0x04

/-- Shift right by a register. -/
def srlv (rd rt rs : UInt32) : UInt32 := register rs rt rd 0 0x06

/-- Shift right with sign by a register. -/
def srav (rd rt rs : UInt32) : UInt32 := register rs rt rd 0 0x07

/-! ### Jumps through registers, conditional moves, system -/

/-- Jump to a register. -/
def jr (rs : UInt32) : UInt32 := register rs 0 0 0 0x08

/-- Jump to a register and link. -/
def jalr (rd rs : UInt32) : UInt32 := register rs 0 rd 0 0x09

/-- Move if zero. -/
def movz (rd rs rt : UInt32) : UInt32 := register rs rt rd 0 0x0A

/-- Move if not zero. -/
def movn (rd rs rt : UInt32) : UInt32 := register rs rt rd 0 0x0B

/-- Request to the system. -/
def syscall (code : UInt32) : UInt32 := withCode code 0x0C

/-- Stop the core. -/
def brk (code : UInt32) : UInt32 := withCode code 0x0D

/-- Memory barrier. -/
def sync : UInt32 := 0x0F

/-! ### Products and quotients -/

/-- Move from the upper half. -/
def mfhi (rd : UInt32) : UInt32 := register 0 0 rd 0 0x10

/-- Move from the lower half. -/
def mflo (rd : UInt32) : UInt32 := register 0 0 rd 0 0x12

/-- Move to the upper half. -/
def mthi (rs : UInt32) : UInt32 := register rs 0 0 0 0x11

/-- Move to the lower half. -/
def mtlo (rs : UInt32) : UInt32 := register rs 0 0 0 0x13

/-- Count leading zeros. -/
def clz (rd rs : UInt32) : UInt32 := register rs 0 rd 0 0x16

/-- Count leading ones. -/
def clo (rd rs : UInt32) : UInt32 := register rs 0 rd 0 0x17

/-- Signed product. -/
def mult (rs rt : UInt32) : UInt32 := register rs rt 0 0 0x18

/-- Unsigned product. -/
def multu (rs rt : UInt32) : UInt32 := register rs rt 0 0 0x19

/-- Signed quotient. -/
def div (rs rt : UInt32) : UInt32 := register rs rt 0 0 0x1A

/-- Unsigned quotient. -/
def divu (rs rt : UInt32) : UInt32 := register rs rt 0 0 0x1B

/-- Add a signed product. -/
def madd (rs rt : UInt32) : UInt32 := register rs rt 0 0 0x1C

/-- Add an unsigned product. -/
def maddu (rs rt : UInt32) : UInt32 := register rs rt 0 0 0x1D

/-- Subtract a signed product. -/
def msub (rs rt : UInt32) : UInt32 := register rs rt 0 0 0x2E

/-- Subtract an unsigned product. -/
def msubu (rs rt : UInt32) : UInt32 := register rs rt 0 0 0x2F

/-! ### Three-register arithmetic -/

/-- Sum. -/
def add (rd rs rt : UInt32) : UInt32 := register rs rt rd 0 0x20

/-- Sum. -/
def addu (rd rs rt : UInt32) : UInt32 := register rs rt rd 0 0x21

/-- Difference. -/
def sub (rd rs rt : UInt32) : UInt32 := register rs rt rd 0 0x22

/-- Difference. -/
def subu (rd rs rt : UInt32) : UInt32 := register rs rt rd 0 0x23

/-- Conjunction. -/
def and (rd rs rt : UInt32) : UInt32 := register rs rt rd 0 0x24

/-- Disjunction. -/
def or (rd rs rt : UInt32) : UInt32 := register rs rt rd 0 0x25

/-- Exclusive disjunction. -/
def xor (rd rs rt : UInt32) : UInt32 := register rs rt rd 0 0x26

/-- Negated disjunction. -/
def nor (rd rs rt : UInt32) : UInt32 := register rs rt rd 0 0x27

/-- Set if less. -/
def slt (rd rs rt : UInt32) : UInt32 := register rs rt rd 0 0x2A

/-- Set if less without sign. -/
def sltu (rd rs rt : UInt32) : UInt32 := register rs rt rd 0 0x2B

/-- Greater of two. -/
def max (rd rs rt : UInt32) : UInt32 := register rs rt rd 0 0x2C

/-- Lesser of two. -/
def min (rd rs rt : UInt32) : UInt32 := register rs rt rd 0 0x2D

/-! ### Branches and jumps -/

/-- Branch if negative. -/
def bltz (rs offset : UInt32) : UInt32 := withImmediate 0x01 rs 0x00 offset

/-- Branch if not negative. -/
def bgez (rs offset : UInt32) : UInt32 := withImmediate 0x01 rs 0x01 offset

/-- Branch likely if negative. -/
def bltzl (rs offset : UInt32) : UInt32 := withImmediate 0x01 rs 0x02 offset

/-- Branch likely if not negative. -/
def bgezl (rs offset : UInt32) : UInt32 := withImmediate 0x01 rs 0x03 offset

/-- Branch and link if negative. -/
def bltzal (rs offset : UInt32) : UInt32 := withImmediate 0x01 rs 0x10 offset

/-- Branch and link if not negative. -/
def bgezal (rs offset : UInt32) : UInt32 := withImmediate 0x01 rs 0x11 offset

/-- Branch likely and link if negative. -/
def bltzall (rs offset : UInt32) : UInt32 := withImmediate 0x01 rs 0x12 offset

/-- Branch likely and link if not negative. -/
def bgezall (rs offset : UInt32) : UInt32 := withImmediate 0x01 rs 0x13 offset

/-- Jump. -/
def j (target : UInt32) : UInt32 := regionJump 0x02 target

/-- Jump and link. -/
def jal (target : UInt32) : UInt32 := regionJump 0x03 target

/-- Branch if equal. -/
def beq (rs rt offset : UInt32) : UInt32 := withImmediate 0x04 rs rt offset

/-- Branch if not equal. -/
def bne (rs rt offset : UInt32) : UInt32 := withImmediate 0x05 rs rt offset

/-- Branch if not positive. -/
def blez (rs offset : UInt32) : UInt32 := withImmediate 0x06 rs 0 offset

/-- Branch if positive. -/
def bgtz (rs offset : UInt32) : UInt32 := withImmediate 0x07 rs 0 offset

/-- Branch likely if equal. -/
def beql (rs rt offset : UInt32) : UInt32 := withImmediate 0x14 rs rt offset

/-- Branch likely if not equal. -/
def bnel (rs rt offset : UInt32) : UInt32 := withImmediate 0x15 rs rt offset

/-- Branch likely if not positive. -/
def blezl (rs offset : UInt32) : UInt32 := withImmediate 0x16 rs 0 offset

/-- Branch likely if positive. -/
def bgtzl (rs offset : UInt32) : UInt32 := withImmediate 0x17 rs 0 offset

/-! ### Immediates -/

/-- Add. -/
def addi (rt rs value : UInt32) : UInt32 := withImmediate 0x08 rs rt value

/-- Add. -/
def addiu (rt rs value : UInt32) : UInt32 := withImmediate 0x09 rs rt value

/-- Set if less. -/
def slti (rt rs value : UInt32) : UInt32 := withImmediate 0x0A rs rt value

/-- Set if less without sign. -/
def sltiu (rt rs value : UInt32) : UInt32 := withImmediate 0x0B rs rt value

/-- Conjunction. -/
def andi (rt rs value : UInt32) : UInt32 := withImmediate 0x0C rs rt value

/-- Disjunction. -/
def ori (rt rs value : UInt32) : UInt32 := withImmediate 0x0D rs rt value

/-- Exclusive disjunction. -/
def xori (rt rs value : UInt32) : UInt32 := withImmediate 0x0E rs rt value

/-- Load the upper half. -/
def lui (rt value : UInt32) : UInt32 := withImmediate 0x0F 0 rt value

/-- The two words that load a full constant. -/
def li (rt value : UInt32) : List UInt32 := [lui rt (value >>> 16), ori rt rt (value &&& 0xFFFF)]

/-! ### Loads and stores -/

/-- Load a byte with sign. -/
def lb (rt rs offset : UInt32) : UInt32 := withImmediate 0x20 rs rt offset

/-- Load a halfword with sign. -/
def lh (rt rs offset : UInt32) : UInt32 := withImmediate 0x21 rs rt offset

/-- Load a word. -/
def lw (rt rs offset : UInt32) : UInt32 := withImmediate 0x23 rs rt offset

/-- Load a byte. -/
def lbu (rt rs offset : UInt32) : UInt32 := withImmediate 0x24 rs rt offset

/-- Load a halfword. -/
def lhu (rt rs offset : UInt32) : UInt32 := withImmediate 0x25 rs rt offset

/-- Store a byte. -/
def sb (rt rs offset : UInt32) : UInt32 := withImmediate 0x28 rs rt offset

/-- Store a halfword. -/
def sh (rt rs offset : UInt32) : UInt32 := withImmediate 0x29 rs rt offset

/-- Store a word. -/
def sw (rt rs offset : UInt32) : UInt32 := withImmediate 0x2B rs rt offset

/-! ### Bit fields and sign extension -/

/-- Extract `size` bits at `pos`; the width is encoded less one. -/
def ext (rt rs pos size : UInt32) : Except Violation UInt32 :=
  if size == 0 then .error .bitField
  else .ok (major 0x1F ||| register rs rt (size - 1) pos 0x00)

/-- Insert `size` bits at `pos`; the position of the last bit is encoded. -/
def ins (rt rs pos size : UInt32) : Except Violation UInt32 :=
  if pos.toNat + size.toNat ≥ 2 ^ 32 ∨ pos + size == 0 then .error .bitField
  else .ok (major 0x1F ||| register rs rt (pos + size - 1) pos 0x04)

/-- Extend a byte with its sign. -/
def seb (rd rt : UInt32) : UInt32 := major 0x1F ||| register 0 rt rd 0x10 0x20

/-- Extend a halfword with its sign. -/
def seh (rd rt : UInt32) : UInt32 := major 0x1F ||| register 0 rt rd 0x18 0x20

/-! ### Vector registers -/

/-- A register of matrix `mtx` that starts in column `col`, at a position given by `row` under a
mask. -/
def vectorRegister (mtx col row rowMask : UInt8) : UInt8 :=
  (mtx &&& 7) <<< (2 : UInt8) ||| (col &&& 3) ||| (row &&& rowMask) <<< (5 : UInt8)

/-- The column register of matrix `mtx` that starts at `row`. -/
def column (mtx col row : UInt8) : UInt8 := vectorRegister mtx col row 2

/-- The row register of matrix `mtx` that starts at `col`. -/
def row (mtx row col : UInt8) : UInt8 := column mtx row col ||| 0x20

/-- The full column of matrix `mtx`. -/
def quad (mtx col : UInt8) : UInt8 := column mtx col 0

/-- A single element of matrix `mtx`. -/
def single (mtx col row : UInt8) : UInt8 := vectorRegister mtx col row 3

/-! ### Vector arithmetic -/

/-- Sum. -/
def vadd (size : VectorSize) (vd vs vt : UInt8) : UInt32 := vectorThree 0x18 0 size vd vs vt

/-- Difference. -/
def vsub (size : VectorSize) (vd vs vt : UInt8) : UInt32 := vectorThree 0x18 1 size vd vs vt

/-- Quotient. -/
def vdiv (size : VectorSize) (vd vs vt : UInt8) : UInt32 := vectorThree 0x18 7 size vd vs vt

/-- Product. -/
def vmul (size : VectorSize) (vd vs vt : UInt8) : UInt32 := vectorThree 0x19 0 size vd vs vt

/-- Lesser. -/
def vmin (size : VectorSize) (vd vs vt : UInt8) : UInt32 := vectorThree 0x1B 2 size vd vs vt

/-- Greater. -/
def vmax (size : VectorSize) (vd vs vt : UInt8) : UInt32 := vectorThree 0x1B 3 size vd vs vt

/-- Compare under one of sixteen conditions. -/
def vcmp (size : VectorSize) (condition : UInt32) (vs vt : UInt8) : UInt32 :=
  vectorThree 0x1B 0 size 0 vs vt ||| bitsAt condition 0xF 0

/-- Copy. -/
def vmov (size : VectorSize) (vd vs : UInt8) : UInt32 := vectorTwo 0 size vd vs

/-- Absolute value. -/
def vabs (size : VectorSize) (vd vs : UInt8) : UInt32 := vectorTwo 1 size vd vs

/-- Negation. -/
def vneg (size : VectorSize) (vd vs : UInt8) : UInt32 := vectorTwo 2 size vd vs

/-- Clamp to the unit interval. -/
def vsat0 (size : VectorSize) (vd vs : UInt8) : UInt32 := vectorTwo 4 size vd vs

/-- Clamp to the signed unit interval. -/
def vsat1 (size : VectorSize) (vd vs : UInt8) : UInt32 := vectorTwo 5 size vd vs

/-- All lanes zero. -/
def vzero (size : VectorSize) (vd : UInt8) : UInt32 := vectorTwo 6 size vd 0

/-- All lanes one. -/
def vone (size : VectorSize) (vd : UInt8) : UInt32 := vectorTwo 7 size vd 0

/-! ### Pending modifiers -/

/-- Set the source modifier. -/
def vpfxs (data : UInt32) : UInt32 := major 0x37 ||| bitsAt data 0xFFFFF 0

/-- Set the target modifier. -/
def vpfxt (data : UInt32) : UInt32 := major 0x37 ||| bitsAt 1 3 24 ||| bitsAt data 0xFFFFF 0

/-- Set the destination modifier. -/
def vpfxd (data : UInt32) : UInt32 := major 0x37 ||| bitsAt 2 3 24 ||| bitsAt data 0xFFFFF 0

/-- Two bits per lane, lane zero lowest. -/
def lanePairs (codes : List UInt32) : UInt32 :=
  codes.foldr (fun code rest => rest <<< (2 : UInt32) ||| bitsAt code 3 0) 0

/-- A source or target modifier from its lane selectors and one mask per flag. -/
def sourceModifier (lanes : List UInt32) (abs constant negate : UInt32) : UInt32 :=
  lanePairs lanes ||| bitsAt abs 0xF 8 ||| bitsAt constant 0xF 12 ||| bitsAt negate 0xF 16

/-- A destination modifier from its clamp codes and write mask. -/
def destinationModifier (clamps : List UInt32) (mask : UInt32) : UInt32 :=
  lanePairs clamps ||| bitsAt mask 0xF 8

/-! ### Vector loads, stores, moves and branches -/

/-- Load one element. -/
def lvS (vt : UInt8) (rs offset : UInt32) : UInt32 := vectorMemory 0x32 vt rs offset 3

/-- Store one element. -/
def svS (vt : UInt8) (rs offset : UInt32) : UInt32 := vectorMemory 0x3A vt rs offset 3

/-- Load four elements. -/
def lvQ (vt : UInt8) (rs offset : UInt32) : UInt32 := vectorMemory 0x36 vt rs offset 1

/-- Store four elements. -/
def svQ (vt : UInt8) (rs offset : UInt32) : UInt32 := vectorMemory 0x3E vt rs offset 1

/-- Move an element to a register. -/
def mfv (rt : UInt32) (vd : UInt8) : UInt32 := vectorMove 0x03 rt (vectorField vd 0)

/-- Move a register to an element. -/
def mtv (rt : UInt32) (vd : UInt8) : UInt32 := vectorMove 0x07 rt (vectorField vd 0)

/-- Move a control register to a register. -/
def mfvc (rt control : UInt32) : UInt32 := vectorMove 0x03 rt (0x80 ||| bitsAt control 0x7F 0)

/-- Move a register to a control register. -/
def mtvc (rt control : UInt32) : UInt32 := vectorMove 0x07 rt (0x80 ||| bitsAt control 0x7F 0)

/-- Branch if clear. -/
def bvf (bit offset : UInt32) : UInt32 := vectorBranch bit 0 0 offset

/-- Branch if set. -/
def bvt (bit offset : UInt32) : UInt32 := vectorBranch bit 1 0 offset

/-- Branch likely if clear. -/
def bvfl (bit offset : UInt32) : UInt32 := vectorBranch bit 0 1 offset

/-- Branch likely if set. -/
def bvtl (bit offset : UInt32) : UInt32 := vectorBranch bit 1 1 offset

/-! ### Bytes -/

/-- The four bytes of a word, lowest first. -/
def wordBytes (w : UInt32) : List UInt8 :=
  [w.toUInt8, (w >>> 8).toUInt8, (w >>> 16).toUInt8, (w >>> 24).toUInt8]

/-- The bytes of consecutive words, as an image holds them. -/
def imageBytes (words : List UInt32) : List UInt8 := words.flatMap wordBytes

end Dynarec.Encode
