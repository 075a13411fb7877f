import Dynarec.Text.Hex

/-!
# Numerals in any base

Numbers that are read in bases up to sixteen.  Letters are digits in either case.
-/

namespace Dynarec.Radix

/-- The character is a digit of a base. -/
def isDigit (base : Nat) (c : Char) : Bool :=
  match Hex.value? c with
  | some n => n < base
  | none => false

/-- The value of digits. -/
def value (base : Nat) (digits : List Char) : Nat :=
  digits.foldl (fun n c => n * base + (Hex.value? c).getD 0) 0

/-- A number without a sign, or with a plus sign in front. -/
def number? (base : Nat) (text : List Char) : Option Nat := do
  let digits :=
    match text with
    | '+' :: rest => rest
    | _ => text
  guard (!digits.isEmpty && digits.all (isDigit base))
  return value base digits

end Dynarec.Radix
