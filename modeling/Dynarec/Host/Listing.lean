import Dynarec.Host.Word

/-!
# Listing host code

Host operations are listed with the names of their fields, in one line each.
-/

namespace Dynarec

namespace Listing

/-- A record: a name and its fields between braces. -/
def record (name : String) (fields : List (String × String)) : String :=
  if fields.isEmpty then name
  else
    name ++ " \x7b " ++ ", ".intercalate (fields.map fun (key, value) => key ++ ": " ++ value) ++
      " \x7d"

/-- An integer register. -/
def reg (r : HostReg) : String := "R" ++ toString r.val

/-- A float register. -/
def floatReg (r : FloatReg) : String := "FReg(" ++ toString r.val ++ ")"

/-- A quad register. -/
def quadReg (r : QuadReg) : String := "QReg(" ++ toString r.val ++ ")"

/-- A scalar register of the guest. -/
def guestReg : GuestReg → String
  | .gpr n => "Gpr(" ++ toString n.val ++ ")"
  | .hi => "Hi"
  | .lo => "Lo"
  | .condition => "VfpuCc"

/-- A word in decimal. -/
def word (w : UInt32) : String := toString w.toNat

/-- A byte in decimal. -/
def byte (b : UInt8) : String := toString b.toNat

/-- An offset in decimal. -/
def offset (n : Int32) : String := toString n.toInt

/-- A condition. -/
def condition : Condition → String
  | .equal => "E"
  | .notEqual => "Ne"
  | .less => "L"
  | .greaterEqual => "Ge"
  | .lessEqual => "Le"
  | .greater => "G"
  | .below => "B"
  | .aboveEqual => "Ae"

/-- An integer function of two words. -/
def aluOp : AluOp → String
  | .add => "Add"
  | .sub => "Sub"
  | .and => "And"
  | .or => "Or"
  | .xor => "Xor"
  | .nor => "Nor"
  | .slt => "Slt"
  | .sltu => "Sltu"
  | .sll => "Sll"
  | .srl => "Srl"
  | .sra => "Sra"
  | .ror => "Ror"
  | .max => "Max"
  | .min => "Min"

/-- An integer function of one word. -/
def unaryOp : UnaryOp → String
  | .clz => "Clz"
  | .clo => "Clo"
  | .seb => "Seb"
  | .seh => "Seh"

/-- A product. -/
def mulKind : MulKind → String
  | .mult => "Mult"
  | .multu => "Multu"
  | .madd => "Madd"
  | .maddu => "Maddu"
  | .msub => "Msub"
  | .msubu => "Msubu"

/-- A width. -/
def width : Width → String
  | .byte => "Byte"
  | .byteUnsigned => "ByteU"
  | .half => "Half"
  | .halfUnsigned => "HalfU"
  | .word => "Word"

/-- A float function of two elements. -/
def floatOp : FloatOp → String
  | .add => "Add"
  | .sub => "Sub"
  | .mul => "Mul"
  | .div => "Div"
  | .min => "Min"
  | .max => "Max"

/-- A float function of one element. -/
def floatUnary : FloatUnary → String
  | .abs => "Abs"
  | .neg => "Neg"
  | .clampUnit => "Sat0"
  | .clampSigned => "Sat1"

end Listing

open Listing in
/-- **The listing of an operation.** -/
def Operation.listing : Operation → String
  | nop => "Nop"
  | movImm rd imm => record "MovImm" [("rd", reg rd), ("imm", word imm)]
  | mov rd rs => record "Mov" [("rd", reg rd), ("rs", reg rs)]
  | loadGuest rd r => record "LoadGuest" [("rd", reg rd), ("reg", guestReg r)]
  | storeGuest rs r => record "StoreGuest" [("rs", reg rs), ("reg", guestReg r)]
  | alu op rd rs rt =>
    record "Alu" [("op", aluOp op), ("rd", reg rd), ("rs", reg rs), ("rt", reg rt)]
  | aluImm op rd rs imm =>
    record "AluImm" [("op", aluOp op), ("rd", reg rd), ("rs", reg rs), ("imm", word imm)]
  | unary op rd rs => record "Unary" [("op", unaryOp op), ("rd", reg rd), ("rs", reg rs)]
  | multiply kind rs rt hi lo =>
    record "Mul" [("kind", mulKind kind), ("rs", reg rs), ("rt", reg rt), ("hi", reg hi),
      ("lo", reg lo)]
  | compare rs rt => record "Cmp" [("rs", reg rs), ("rt", reg rt)]
  | compareImm rs imm => record "CmpImm" [("rs", reg rs), ("imm", word imm)]
  | setIf c rd => record "SetCc" [("cond", condition c), ("rd", reg rd)]
  | movIf c rd rs => record "MovIf" [("cond", condition c), ("rd", reg rd), ("rs", reg rs)]
  | load w rd base n =>
    record "Load" [("width", width w), ("rd", reg rd), ("base", reg base), ("offset", offset n)]
  | store w rs base n =>
    record "Store" [("width", width w), ("rs", reg rs), ("base", reg base), ("offset", offset n)]
  | saveFlags => "SaveFlags"
  | restoreFlags => "RestoreFlags"
  | jump target => record "Jump" [("target", word target)]
  | jumpIf c target => record "JumpIf" [("cond", condition c), ("target", word target)]
  | subDowncount amount => record "SubDowncount" [("amount", word amount)]
  | checkEntry inRegister pc =>
    record "CheckEntry" [("downcount_in_reg", toString inRegister), ("pc", word pc)]
  | setPc pc => record "SetPc" [("pc", word pc)]
  | exitDispatch pc => record "ExitDispatch" [("pc", word pc)]
  | exitDispatchReg rs => record "ExitDispatchReg" [("rs", reg rs)]
  | exitInterpret pc => record "ExitInterpret" [("pc", word pc)]
  | exitSyscall code next => record "ExitSyscall" [("code", word code), ("next_pc", word next)]
  | exitBreak pc => record "ExitBreak" [("pc", word pc)]
  | interpret w => record "CallInterp" [("op", word w)]
  | guardModifiers pc => record "GuardDefaultPrefix" [("pc", word pc)]
  | loadControl rd index => record "LoadVfpuCtrl" [("rd", reg rd), ("idx", byte index)]
  | storeControl rs index => record "StoreVfpuCtrl" [("rs", reg rs), ("idx", byte index)]
  | setControl index value => record "SetVfpuCtrl" [("idx", byte index), ("value", word value)]
  | loadElement fd e => record "FLoadGuest" [("fd", floatReg fd), ("idx", byte e)]
  | storeElement fs e => record "FStoreGuest" [("fs", floatReg fs), ("idx", byte e)]
  | float op fd fs ft =>
    record "FAlu" [("op", floatOp op), ("fd", floatReg fd), ("fs", floatReg fs),
      ("ft", floatReg ft)]
  | floatUnary op fd fs =>
    record "FUnary" [("op", Listing.floatUnary op), ("fd", floatReg fd), ("fs", floatReg fs)]
  | floatImm fd bits => record "FMovImm" [("fd", floatReg fd), ("bits", word bits)]
  | floatMov fd fs => record "FMov" [("fd", floatReg fd), ("fs", floatReg fs)]
  | floatLoad fd base n =>
    record "FLoad" [("fd", floatReg fd), ("base", reg base), ("offset", offset n)]
  | floatStore fs base n =>
    record "FStore" [("fs", floatReg fs), ("base", reg base), ("offset", offset n)]
  | floatCompare c lane rd fs ft =>
    record "FCmp" [("cond", toString c.val), ("lane", toString lane.val), ("rd", reg rd),
      ("fs", floatReg fs), ("ft", floatReg ft)]
  | mergeConditions rd rs lanes =>
    record "CcMerge" [("rd", reg rd), ("rs", reg rs), ("lanes", byte lanes)]
  | floatToInt rd fs => record "FToInt" [("rd", reg rd), ("fs", floatReg fs)]
  | intToFloat fd rs => record "IntToF" [("fd", floatReg fd), ("rs", reg rs)]
  | loadQuad qd r => record "QLoadGuest" [("qd", quadReg qd), ("vreg", byte r)]
  | storeQuad qs r => record "QStoreGuest" [("qs", quadReg qs), ("vreg", byte r)]
  | quad op qd qs qt =>
    record "QAlu" [("op", floatOp op), ("qd", quadReg qd), ("qs", quadReg qs), ("qt", quadReg qt)]
  | quadUnary op qd qs =>
    record "QUnary" [("op", Listing.floatUnary op), ("qd", quadReg qd), ("qs", quadReg qs)]
  | quadImm qd bits => record "QMovImm" [("qd", quadReg qd), ("bits", word bits)]
  | quadLoad qd base n =>
    record "QLoad" [("qd", quadReg qd), ("base", reg base), ("offset", offset n)]
  | quadStore qs base n =>
    record "QStore" [("qs", quadReg qs), ("base", reg base), ("offset", offset n)]

end Dynarec
