import Dynarec.Guest.Interpreter

/-!
# Host operations

Compiled code runs on a register machine with sixteen integer registers, 32 float registers,
eight quad registers of four floats each, and one pair of compared words in place of flags.  This
file lists its operations and the functions that they compute.
-/

namespace Dynarec

/-- An integer register of the host. -/
abbrev HostReg := Fin 16

/-- A float register of the host. -/
abbrev FloatReg := Fin 32

/-- A quad register of the host. -/
abbrev QuadReg := Fin 8

namespace HostReg

/-- Holds the downcount while native code runs, if so configured. -/
def downcount : HostReg := 15

/-- Scratch register for addresses and compares; never holds a guest register. -/
def scratch : HostReg := 14

/-- Holds the target of an indirect jump across its delay slot. -/
def jumpTarget : HostReg := 13

end HostReg

/-! ### Conditions -/

/-- A condition on the last compared words. -/
inductive Condition where
  | equal
  | notEqual
  | less
  | greaterEqual
  | lessEqual
  | greater
  /-- Less, as unsigned words. -/
  | below
  /-- Greater or equal, as unsigned words. -/
  | aboveEqual
deriving DecidableEq, Repr, Inhabited

namespace Condition

/-- The opposite condition. -/
def invert : Condition → Condition
  | equal => notEqual
  | notEqual => equal
  | less => greaterEqual
  | greaterEqual => less
  | lessEqual => greater
  | greater => lessEqual
  | below => aboveEqual
  | aboveEqual => below

/-- Whether the condition holds between two words. -/
def eval (c : Condition) (a b : UInt32) : Bool :=
  match c with
  | equal => a == b
  | notEqual => a != b
  | less => signedLess a b
  | greaterEqual => !signedLess a b
  | lessEqual => !signedLess b a
  | greater => signedLess b a
  | below => decide (a < b)
  | aboveEqual => decide (b ≤ a)

/-- Every condition, by code. -/
def all : List Condition :=
  [equal, notEqual, less, greaterEqual, lessEqual, greater, below, aboveEqual]

end Condition

/-! ### Integer functions -/

/-- Integer functions of two words. -/
inductive AluOp where
  | add
  | sub
  | and
  | or
  | xor
  | nor
  | slt
  | sltu
  | sll
  | srl
  | sra
  | ror
  | max
  | min
deriving DecidableEq, Repr, Inhabited

namespace AluOp

/-- The function of an operation; shifts use the low five bits of the amount. -/
def apply (op : AluOp) (a b : UInt32) : UInt32 :=
  match op with
  | add => a + b
  | sub => a - b
  | and => a &&& b
  | or => a ||| b
  | xor => a ^^^ b
  | nor => ~~~(a ||| b)
  | slt => flagWord (signedLess a b)
  | sltu => flagWord (decide (a < b))
  | sll => a <<< (b &&& 31)
  | srl => a >>> (b &&& 31)
  | sra => shiftRightSigned a (b &&& 31)
  | ror => rotateRight a (b &&& 31)
  | max => signedMax a b
  | min => signedMin a b

/-- Every operation, by code. -/
def all : List AluOp :=
  [add, sub, and, or, xor, nor, slt, sltu, sll, srl, sra, ror, max, min]

end AluOp

/-- Integer functions of one word. -/
inductive UnaryOp where
  | clz
  | clo
  | seb
  | seh
deriving DecidableEq, Repr, Inhabited

namespace UnaryOp

/-- The function of an operation. -/
def apply (op : UnaryOp) (a : UInt32) : UInt32 :=
  match op with
  | clz => leadingZeros a
  | clo => leadingOnes a
  | seb => (signExtend8 a).toUInt32
  | seh => (signExtend16 a).toUInt32

/-- Every operation, by code. -/
def all : List UnaryOp := [clz, clo, seb, seh]

end UnaryOp

/-- Products into the pair of product words. -/
inductive MulKind where
  | mult
  | multu
  | madd
  | maddu
  | msub
  | msubu
deriving DecidableEq, Repr, Inhabited

namespace MulKind

/-- The new upper and lower word from the operands and the old pair. -/
def apply (kind : MulKind) (a b hi lo : UInt32) : UInt32 × UInt32 :=
  let pair := joinWords hi lo
  let result : UInt64 :=
    match kind with
    | mult => signedProduct a b
    | multu => unsignedProduct a b
    | madd => pair + signedProduct a b
    | maddu => pair + unsignedProduct a b
    | msub => pair - signedProduct a b
    | msubu => pair - unsignedProduct a b
  ((result >>> 32).toUInt32, result.toUInt32)

/-- Every product, by code. -/
def all : List MulKind := [mult, multu, madd, maddu, msub, msubu]

end MulKind

/-- How many bytes are moved, and whether a load extends their sign. -/
inductive Width where
  | byte
  | byteUnsigned
  | half
  | halfUnsigned
  | word
deriving DecidableEq, Repr, Inhabited

namespace Width

/-- Every width, by code. -/
def all : List Width := [byte, byteUnsigned, half, halfUnsigned, word]

/-- Load a value of this width. -/
def load (w : Width) (memory : Memory) (address : UInt32) : UInt32 :=
  match w with
  | byte => (signExtend8 (memory.read8 address)).toUInt32
  | byteUnsigned => memory.read8 address
  | half => (signExtend16 (memory.read16 address)).toUInt32
  | halfUnsigned => memory.read16 address
  | word => memory.read32 address

/-- Store a value of this width. -/
def store (w : Width) (memory : Memory) (address value : UInt32) : Except Violation Memory :=
  match w with
  | byte | byteUnsigned => memory.write8 address value
  | half | halfUnsigned => memory.write16 address value
  | word => memory.write32 address value

end Width

/-! ### Float functions -/

/-- Float functions of two elements. -/
inductive FloatOp where
  | add
  | sub
  | mul
  | div
  | min
  | max
deriving DecidableEq, Repr, Inhabited

namespace FloatOp

/-- The function of an operation. -/
def apply (op : FloatOp) : Single → Single → Single :=
  match op with
  | add => Single.add
  | sub => Single.sub
  | mul => Single.mul
  | div => Single.div
  | min => Single.min
  | max => Single.max

/-- Every operation, by code. -/
def all : List FloatOp := [add, sub, mul, div, min, max]

end FloatOp

/-- Float functions of one element. -/
inductive FloatUnary where
  | abs
  | neg
  | clampUnit
  | clampSigned
deriving DecidableEq, Repr, Inhabited

namespace FloatUnary

/-- The function of an operation. -/
def apply (op : FloatUnary) : Single → Single :=
  match op with
  | abs => Single.abs
  | neg => Single.neg
  | clampUnit => Single.clampUnit
  | clampSigned => Single.clampSigned

/-- Every operation, by code. -/
def all : List FloatUnary := [abs, neg, clampUnit, clampSigned]

end FloatUnary

/-! ### Operations -/

/-- **A host operation.** -/
inductive Operation where
  | nop
  | movImm (rd : HostReg) (imm : UInt32)
  | mov (rd rs : HostReg)
  | loadGuest (rd : HostReg) (reg : GuestReg)
  | storeGuest (rs : HostReg) (reg : GuestReg)
  | alu (op : AluOp) (rd rs rt : HostReg)
  | aluImm (op : AluOp) (rd rs : HostReg) (imm : UInt32)
  | unary (op : UnaryOp) (rd rs : HostReg)
  | multiply (kind : MulKind) (rs rt hi lo : HostReg)
  | compare (rs rt : HostReg)
  | compareImm (rs : HostReg) (imm : UInt32)
  /-- Set a register to one if the condition holds, else to zero. -/
  | setIf (condition : Condition) (rd : HostReg)
  | movIf (condition : Condition) (rd rs : HostReg)
  | load (width : Width) (rd base : HostReg) (offset : Int32)
  | store (width : Width) (rs base : HostReg) (offset : Int32)
  | saveFlags
  | restoreFlags
  | jump (target : UInt32)
  | jumpIf (condition : Condition) (target : UInt32)
  /-- Subtract from the downcount in the core. -/
  | subDowncount (amount : UInt32)
  /-- Entry of a linked jump: leave to the dispatcher at `pc` when the downcount is used up or
  something wants attention. -/
  | checkEntry (inRegister : Bool) (pc : UInt32)
  | setPc (pc : UInt32)
  /-- Leave to the dispatcher at `pc`.  This word is replaced when the exit is linked. -/
  | exitDispatch (pc : UInt32)
  | exitDispatchReg (rs : HostReg)
  /-- Leave at a branch that the interpreter has to run. -/
  | exitInterpret (pc : UInt32)
  | exitSyscall (code next : UInt32)
  | exitBreak (pc : UInt32)
  /-- Run one guest instruction through the interpreter. -/
  | interpret (word : UInt32)
  /-- Leave when a modifier is pending. -/
  | guardModifiers (pc : UInt32)
  | loadControl (rd : HostReg) (index : UInt8)
  | storeControl (rs : HostReg) (index : UInt8)
  | setControl (index : UInt8) (value : UInt32)
  | loadElement (fd : FloatReg) (element : UInt8)
  | storeElement (fs : FloatReg) (element : UInt8)
  | float (op : FloatOp) (fd fs ft : FloatReg)
  | floatUnary (op : FloatUnary) (fd fs : FloatReg)
  | floatImm (fd : FloatReg) (bits : UInt32)
  | floatMov (fd fs : FloatReg)
  | floatLoad (fd : FloatReg) (base : HostReg) (offset : Int32)
  | floatStore (fs : FloatReg) (base : HostReg) (offset : Int32)
  /-- Set or clear the bit of `lane` by a lane compare. -/
  | floatCompare (condition lane : Fin 16) (rd : HostReg) (fs ft : FloatReg)
  /-- Merge compare bits into the condition word in `rd`. -/
  | mergeConditions (rd rs : HostReg) (lanes : UInt8)
  | floatToInt (rd : HostReg) (fs : FloatReg)
  | intToFloat (fd : FloatReg) (rs : HostReg)
  | loadQuad (qd : QuadReg) (reg : UInt8)
  | storeQuad (qs : QuadReg) (reg : UInt8)
  | quad (op : FloatOp) (qd qs qt : QuadReg)
  | quadUnary (op : FloatUnary) (qd qs : QuadReg)
  | quadImm (qd : QuadReg) (bits : UInt32)
  | quadLoad (qd : QuadReg) (base : HostReg) (offset : Int32)
  | quadStore (qs : QuadReg) (base : HostReg) (offset : Int32)
deriving DecidableEq, Repr, Inhabited

/-- Running the operation may change the compared words. -/
def Operation.clobbersFlags : Operation → Bool
  | .compare .. | .compareImm .. | .interpret .. => true
  | _ => false

end Dynarec
