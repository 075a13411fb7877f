import Dynarec.Numerals

/-!
# Single-precision words

A vector element is a binary32 word.  Moves, sign changes and clamps act on the bits, so they
keep every payload; comparisons place a word on a line of integers (`rank`) and never look at a
payload; the four arithmetic operations are those of the machine, round to nearest even.
-/

namespace Dynarec

/-- **A binary32 word**, kept as its bits. -/
structure Single where
  bits : UInt32
deriving DecidableEq, Repr, Inhabited

namespace Single

/-- Positive zero. -/
def zero : Single := ⟨0⟩

/-- One. -/
def one : Single := ⟨0x3F800000⟩

/-- Minus one. -/
def negOne : Single := ⟨0xBF800000⟩

/-- The single nearest to a natural number. -/
def ofNat (n : Nat) : Single := ⟨(Float32.ofNat n).toBits⟩

/-! ### Shape of a word -/

/-- The word without its sign. -/
def magnitude (x : Single) : UInt32 := x.bits &&& 0x7FFFFFFF

/-- The sign bit is set. -/
def isNegative (x : Single) : Bool := x.bits &&& 0x80000000 != 0

/-- Not a number, quiet or signalling. -/
def isNaN (x : Single) : Bool := decide (x.magnitude > 0x7F800000)

/-- An infinity of either sign. -/
def isInfinite (x : Single) : Bool := x.magnitude == 0x7F800000

/-- **Place on the number line.**  Numbers are ordered as their ranks are, and both zeros have
rank zero. -/
def rank (x : Single) : Int :=
  if x.isNegative then -(x.magnitude.toNat : Int) else x.magnitude.toNat

/-! ### Comparisons, false when an operand is not a number -/

/-- Both operands are numbers. -/
def ordered (a b : Single) : Bool := !a.isNaN && !b.isNaN

/-- Equal numbers; the two zeros are equal. -/
def eq (a b : Single) : Bool := ordered a b && a.rank == b.rank

/-- Less. -/
def lt (a b : Single) : Bool := ordered a b && decide (a.rank < b.rank)

/-- Less or equal. -/
def le (a b : Single) : Bool := ordered a b && decide (a.rank ≤ b.rank)

/-! ### Operations on the bits -/

/-- Clear the sign bit. -/
def abs (x : Single) : Single := ⟨x.magnitude⟩

/-- Flip the sign bit. -/
def neg (x : Single) : Single := ⟨x.bits ^^^ 0x80000000⟩

/-- Clamp to `[0, 1]`; whatever is not a number stays as it is. -/
def clampUnit (x : Single) : Single :=
  if le x zero then zero else if lt one x then one else x

/-- Clamp to `[-1, 1]`; whatever is not a number stays as it is. -/
def clampSigned (x : Single) : Single :=
  if lt x negOne then negOne else if lt one x then one else x

/-- The lesser operand; an operand that is not a number gives way to the other. -/
def min (a b : Single) : Single :=
  if a.isNaN then b else if b.isNaN then a else if lt b a then b else a

/-- The greater operand; an operand that is not a number gives way to the other. -/
def max (a b : Single) : Single :=
  if a.isNaN then b else if b.isNaN then a else if lt a b then b else a

/-! ### Machine arithmetic -/

/-- Sum. -/
def add (a b : Single) : Single := ⟨(Float32.ofBits a.bits + Float32.ofBits b.bits).toBits⟩

/-- Difference. -/
def sub (a b : Single) : Single := ⟨(Float32.ofBits a.bits - Float32.ofBits b.bits).toBits⟩

/-- Product. -/
def mul (a b : Single) : Single := ⟨(Float32.ofBits a.bits * Float32.ofBits b.bits).toBits⟩

/-- Quotient. -/
def div (a b : Single) : Single := ⟨(Float32.ofBits a.bits / Float32.ofBits b.bits).toBits⟩

end Single

end Dynarec
