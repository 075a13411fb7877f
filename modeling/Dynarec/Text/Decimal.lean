import Dynarec.Numerals

/-!
# Decimal numerals

Numbers in text that is read back are written and read here: `digits` has no leading zeros, and
`value` is the value of any list of digits.
-/

namespace Dynarec.Decimal

/-- The character of a digit. -/
def digit (n : Nat) : Char := Char.ofNat ('0'.toNat + n % 10)

/-- The character is a decimal digit. -/
def isDigit (c : Char) : Bool := '0' ≤ c && c ≤ '9'

/-- The value of a digit. -/
def digitValue (c : Char) : Nat := c.toNat - '0'.toNat

/-- The digits of a number, most significant first. -/
def digits (n : Nat) : List Char :=
  if n < 10 then [digit n] else digits (n / 10) ++ [digit n]
termination_by n

/-- The value of digits. -/
def value (l : List Char) : Nat := l.foldl (fun n c => n * 10 + digitValue c) 0

/-- A number as text. -/
def text (n : Nat) : String := String.ofList (digits n)

/-- A signed number as text. -/
def signedText (n : Int) : String :=
  if n < 0 then "-" ++ text n.natAbs else text n.natAbs

end Dynarec.Decimal
