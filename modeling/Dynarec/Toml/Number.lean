import Dynarec.Text.Decimal
import Dynarec.Toml.Quoted

/-!
# Numbers

Integers are signed words of 64 bits, in decimal or, with a mark in front and without a sign, in
another base.  Fractions are not used by any setting, but a text with one that is too great to be
stored is refused.  Between digits there may be an underscore.
-/

namespace Dynarec.Toml

open Scan

/-! ### Digits -/

/-- Digits of a class, without the underscores between them. -/
def digitGroups (isDigit : Char → Bool) : Scan (List Char) := do
  let first ← charIf isDigit
  let rest ← many do
    charIf isDigit <|> do
      char '_'
      charIf isDigit
  return first :: rest

/-- A sign, which may be missing: the number is negative. -/
def sign : Scan Bool := do
  let c ← maybe (charIf fun c => c == '+' || c == '-')
  return c == some '-'

/-- A decimal number without a sign.  It starts with a zero only if it is zero. -/
def unsignedDecimal : Scan (List Char) :=
  (do char '0'; return ['0']) <|> digitGroups Decimal.isDigit

/-! ### Integers -/

/-- An integer in a base that is marked. -/
def marked (mark : String) (base : Nat) : Scan Int := do
  word mark
  let n := Radix.value base (← digitGroups (Radix.isDigit base))
  guard (n < 2 ^ 63)
  return n

/-- A decimal integer. -/
def decimal : Scan Int := do
  let negative ← sign
  let n := Decimal.value (← unsignedDecimal)
  guard (n < 2 ^ 63 || negative && n == 2 ^ 63)
  return if negative then -n else n

/-- **An integer.** -/
def integer : Scan Int := marked "0x" 16 <|> marked "0o" 8 <|> marked "0b" 2 <|> decimal

/-! ### Fractions -/

/-- The exponent of a fraction. -/
def exponent : Scan Int := do
  let _ ← charIf fun c => c == 'e' || c == 'E'
  let negative ← sign
  let n := Decimal.value (← digitGroups Decimal.isDigit)
  return if negative then -n else n

/-- The places after the point, and the exponent, which may be missing. -/
def places : Scan (List Char × Int) := do
  char '.'
  let digits ← digitGroups Decimal.isDigit
  return (digits, (← maybe exponent).getD 0)

/-- Half a unit beyond the greatest double, from where on numbers round to infinity. -/
def doubleLimit : Nat := 2 ^ 1024 - 2 ^ 970

/-- How many digits the whole part of `doubleLimit` has. -/
def doubleDigits : Nat := 309

/-- A number, given by digits and a power of ten, rounds to infinity as a double. -/
def overflows (digits : List Char) (exponent : Int) : Bool :=
  let significant := digits.dropWhile (· == '0')
  let whole := significant.length + exponent
  if significant.isEmpty || whole < doubleDigits then false
  else if doubleDigits < whole then true
  else
    doubleLimit * Nat.pow 10 (-exponent).toNat ≤
      Decimal.value significant * Nat.pow 10 exponent.toNat

/-- A fraction in digits. -/
def finite : Scan Unit := do
  let negative ← sign
  let whole ← unsignedDecimal
  let (digits, exponent) ← (do return ([], ← exponent)) <|> places
  guard (negative || !overflows (whole ++ digits) (exponent - digits.length))

/-- Infinity, or what is no number. -/
def special : Scan Unit := do
  let _ ← sign
  word "inf" <|> word "nan"

/-- **A fraction**, by its characters. -/
def fraction : Scan String := String.ofList <$> literal (finite <|> special)

end Dynarec.Toml
