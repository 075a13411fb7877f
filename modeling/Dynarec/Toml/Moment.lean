import Dynarec.Text.Decimal
import Dynarec.Text.Scan

/-!
# Dates and times

A moment is a date, a time, or a date with a time and perhaps an offset.  The parts have a fixed
number of digits and have to be in range; a minute may have a leap second.
-/

namespace Dynarec.Toml

open Scan

/-- A number of so many digits. -/
def fixedDigits (count : Nat) : Scan Nat :=
  Decimal.value <$> exactly (charIf Decimal.isDigit) count

/-- Two digits in a range. -/
def twoDigits (least greatest : Nat) : Scan Nat := do
  let n ← fixedDigits 2
  guard (least ≤ n && n ≤ greatest)
  return n

/-- The year has a 29th of February. -/
def isLeapYear (year : Nat) : Bool := year % 4 == 0 && (year % 100 != 0 || year % 400 == 0)

/-- The days of a month. -/
def daysInMonth (year month : Nat) : Nat :=
  match month with
  | 2 => if isLeapYear year then 29 else 28
  | 4 | 6 | 9 | 11 => 30
  | _ => 31

/-- A date. -/
def date : Scan Unit := do
  let year ← fixedDigits 4
  char '-'
  let month ← twoDigits 1 12
  char '-'
  let day ← twoDigits 1 31
  guard (day ≤ daysInMonth year month)

/-- Parts of a second. -/
def secondFraction : Scan Unit := do
  char '.'
  let digits ← charsWhile Decimal.isDigit
  guard !digits.isEmpty

/-- A time. -/
def time : Scan Unit := do
  let _ ← twoDigits 0 23
  char ':'
  let _ ← twoDigits 0 59
  char ':'
  let _ ← twoDigits 0 60
  let _ ← maybe secondFraction

/-- The offset of a time. -/
def offset : Scan Unit :=
  char 'Z' <|> char 'z' <|> do
    char '+' <|> char '-'
    let _ ← twoDigits 0 23
    char ':'
    let _ ← twoDigits 0 59

/-- A time after a date. -/
def timeOfDate : Scan Unit := do
  char 'T' <|> char 't' <|> char ' '
  time
  let _ ← maybe offset

/-- A date, and the time if there is one. -/
def dateTime : Scan Unit := do
  date
  let _ ← maybe timeOfDate

/-- **A moment**, by its characters. -/
def moment : Scan String := String.ofList <$> literal (dateTime <|> time)

end Dynarec.Toml
