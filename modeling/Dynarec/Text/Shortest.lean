import Dynarec.Text.Decimal

/-!
# Shortest decimals

A stored number stands for all reals that round to it.  Of the decimals among them the one with the
fewest digits is written, and of several with equally few the one nearest to the number.

All quantities are counted in one unit, a power of ten that is small enough to make them integers.
A decimal that ends `places` digits above the unit is then a multiple of `10 ^ places`, and the
search starts with the coarsest multiples.
-/

namespace Dynarec

/-- **The reals that round to a number**: an interval around it. -/
structure RoundingInterval where
  low : Nat
  /-- The number itself. -/
  value : Nat
  high : Nat
  /-- The bounds round to the number too. -/
  closed : Bool
deriving DecidableEq, Repr, Inhabited

/-- **A positive decimal**: digits, the first and the last of them not zero, and the power of ten
that the first one counts. -/
structure Scientific where
  digits : List Char
  exponent : Int
deriving DecidableEq, Repr, Inhabited

namespace RoundingInterval

/-- A quantity rounds to the number. -/
def contains (i : RoundingInterval) (n : Nat) : Bool :=
  if i.closed then decide (i.low ≤ n ∧ n ≤ i.high) else decide (i.low < n ∧ n < i.high)

/-- **The multiple of `step` to write**: the nearest to the number, if it rounds to it.  Halfway
between two multiples the even one is taken.  The result is the factor. -/
def factor? (i : RoundingInterval) (step : Nat) : Option Nat :=
  let below := i.value / step
  match i.contains (below * step), i.contains ((below + 1) * step) with
  | false, false => none
  | true, false => some below
  | false, true => some (below + 1)
  | true, true =>
    let twice := 2 * i.value
    let middle := (2 * below + 1) * step
    if twice < middle ∨ twice = middle ∧ below % 2 = 0 then some below else some (below + 1)

/-- The coarsest multiple that rounds to the number, no coarser than `10 ^ places`: its factor and
its places.  On the unit itself the number is one. -/
def coarsest (i : RoundingInterval) : (places : Nat) → Nat × Nat
  | 0 => (i.value, 0)
  | places + 1 =>
    match i.factor? (10 ^ (places + 1)) with
    | some factor => (factor, places + 1)
    | none => i.coarsest places

/-- **The shortest decimal that rounds to the number**, whose unit is `10 ^ -scale`. -/
def shortest (i : RoundingInterval) (scale : Nat) : Scientific :=
  let (factor, places) := i.coarsest ((Decimal.digits i.value).length - 1)
  let digits := Decimal.digits factor
  { digits := (digits.reverse.dropWhile (· == '0')).reverse
    exponent := (places + digits.length : Nat) - 1 - (scale : Int) }

end RoundingInterval

end Dynarec
