import Dynarec.Numerals

/-!
# Text from bytes

`decodeLossy` reads bytes as UTF-8.  Where they are not, the longest start of a character that could
still have become one is replaced by a single U+FFFD, and reading goes on with the next byte.
-/

namespace Dynarec.Unicode

/-- The character that stands for malformed bytes. -/
def replacement : Char := Char.ofNat 0xFFFD

/-- How many bytes follow a first byte, and the range of the first of them; none if no character
starts so. -/
def following? (first : UInt8) : Option (Nat × UInt8 × UInt8) :=
  if 0xC2 ≤ first && first ≤ 0xDF then some (1, 0x80, 0xBF)
  else if first == 0xE0 then some (2, 0xA0, 0xBF)
  else if first == 0xED then some (2, 0x80, 0x9F)
  else if 0xE1 ≤ first && first ≤ 0xEF then some (2, 0x80, 0xBF)
  else if first == 0xF0 then some (3, 0x90, 0xBF)
  else if first == 0xF4 then some (3, 0x80, 0x8F)
  else if 0xF1 ≤ first && first ≤ 0xF3 then some (3, 0x80, 0xBF)
  else none

/-- A character that is not complete yet. -/
structure Partial where
  /-- Its bits so far. -/
  value : Nat
  /-- How many bytes it lacks, one at least. -/
  missing : Nat
  /-- Least next byte. -/
  low : UInt8
  /-- Greatest next byte. -/
  high : UInt8

/-- Where the reading of bytes stands. -/
structure Decoder where
  /-- The characters read so far, latest first. -/
  read : List Char
  /-- The character that is open, if any. -/
  open? : Option Partial

namespace Decoder

/-- Nothing is read. -/
def start : Decoder := ⟨[], none⟩

/-- A character is complete. -/
def push (d : Decoder) (c : Char) : Decoder := ⟨c :: d.read, none⟩

/-- Read the first byte of a character. -/
def first (d : Decoder) (b : UInt8) : Decoder :=
  if b < 0x80 then d.push (Char.ofNat b.toNat)
  else
    match following? b with
    | none => d.push replacement
    | some (count, low, high) =>
      ⟨d.read, some ⟨b.toNat % Nat.pow 2 (6 - count), count, low, high⟩⟩

/-- Read a byte. -/
def next (d : Decoder) (b : UInt8) : Decoder :=
  match d.open? with
  | none => d.first b
  | some p =>
    if p.low ≤ b && b ≤ p.high then
      let value := p.value * 64 + b.toNat % 64
      if p.missing ≤ 1 then d.push (Char.ofNat value)
      else ⟨d.read, some ⟨value, p.missing - 1, 0x80, 0xBF⟩⟩
    else (d.push replacement).first b

/-- The characters, with the open one replaced. -/
def finish (d : Decoder) : List Char :=
  (if d.open?.isSome then replacement :: d.read else d.read).reverse

end Decoder

/-- **The text of bytes**, malformed parts replaced. -/
def decodeLossy (bytes : List UInt8) : String :=
  String.ofList (bytes.foldl Decoder.next Decoder.start).finish

end Dynarec.Unicode
