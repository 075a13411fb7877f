import Dynarec.Single.Basic
import Dynarec.Text.Shortest

/-!
# Singles as text

A single is written with the fewest digits that are read back as the same single.  Powers of ten
from `10 ^ -6` to `10 ^ 12` are written out, always with a point; beyond them the first digit stands
before the point, and an exponent with a sign follows.
-/

namespace Dynarec.Single

/-! ### The reals that round to a single -/

/-- The exponent bits. -/
def exponentField (x : Single) : Nat := x.magnitude.toNat / 2 ^ 23

/-- The fraction bits. -/
def fraction (x : Single) : Nat := x.magnitude.toNat % 2 ^ 23

/-- The significand, with the leading bit that normal numbers do not store. -/
def significand (x : Single) : Nat :=
  if x.exponentField = 0 then x.fraction else x.fraction + 2 ^ 23

/-- The power of two that the significand counts, above the least one. -/
def binade (x : Single) : Nat := x.exponentField - 1

/-- A quarter of the least power of two is `2 ^ -151`, which has as many decimal places. -/
def scale : Nat := 151

/-- **The reals that round to a finite single.**  Halfway between two singles the one with the even
significand is taken.  Below a power of two the singles are twice as dense. -/
def rounding (x : Single) : RoundingInterval :=
  let quarter := Nat.pow 2 x.binade * Nat.pow 5 scale
  let gap := if x.fraction = 0 ∧ x.exponentField > 1 then 1 else 2
  { low := (4 * x.significand - gap) * quarter
    value := 4 * x.significand * quarter
    high := (4 * x.significand + 2) * quarter
    closed := x.significand % 2 == 0 }

/-! ### Layout -/

/-- The least power of ten that is written out. -/
def leastPositional : Int := -6

/-- The greatest power of ten that is written out. -/
def greatestPositional : Int := 12

/-- So many zeros. -/
def zeros (n : Nat) : List Char := List.replicate n '0'

/-- A decimal with all its places. -/
def positional (d : Scientific) : List Char :=
  if d.exponent < 0 then '0' :: '.' :: (zeros (-d.exponent - 1).toNat ++ d.digits)
  else
    let whole := d.exponent.toNat + 1
    if d.digits.length ≤ whole then d.digits ++ zeros (whole - d.digits.length) ++ ['.', '0']
    else d.digits.take whole ++ '.' :: d.digits.drop whole

/-- A decimal with an exponent. -/
def exponential (d : Scientific) : List Char :=
  let point := if d.digits.length ≤ 1 then [] else ['.']
  let sign := if d.exponent < 0 then '-' else '+'
  d.digits.take 1 ++ point ++ d.digits.drop 1 ++ 'e' :: sign :: Decimal.digits d.exponent.natAbs

/-- A positive decimal. -/
def layout (d : Scientific) : List Char :=
  if leastPositional ≤ d.exponent ∧ d.exponent ≤ greatestPositional then positional d
  else exponential d

/-- **The text of a single**; none if it is no finite number. -/
def text? (x : Single) : Option String :=
  if x.isNaN || x.isInfinite then none
  else
    let magnitude := if x.significand = 0 then ['0', '.', '0'] else layout (x.rounding.shortest scale)
    some (String.ofList (if x.isNegative then '-' :: magnitude else magnitude))

end Dynarec.Single
