import Dynarec.Numerals

/-!
# Hexadecimal words

Addresses and instruction words are printed as `0x` and eight lower-case digits.
-/

namespace Dynarec.Hex

/-- The lower-case digit of a value below sixteen. -/
def digit (n : Nat) : Char :=
  if n < 10 then Char.ofNat ('0'.toNat + n) else Char.ofNat ('a'.toNat + (n - 10))

/-- The `count` low digits of `n`, most significant first. -/
def digits : (count : Nat) → (n : Nat) → List Char
  | 0, _ => []
  | count + 1, n => digits count (n / 16) ++ [digit (n % 16)]

/-- A word as `0x` and eight digits. -/
def word (w : UInt32) : String :=
  "0x" ++ String.ofList (digits 8 w.toNat)

/-- The value of one digit of either case. -/
def value? (c : Char) : Option Nat :=
  if c.isDigit then some (c.toNat - '0'.toNat)
  else if 'a' ≤ c ∧ c ≤ 'f' then some (c.toNat - 'a'.toNat + 10)
  else if 'A' ≤ c ∧ c ≤ 'F' then some (c.toNat - 'A'.toNat + 10)
  else none

end Dynarec.Hex
