import Dynarec.Text.Decimal
import Dynarec.Text.Hex

/-!
# JSON tokens

A JSON text is a sequence of tokens with blanks between them.  `JsonToken.ofChars?` reads the whole
sequence, or nothing if some part of the text is no token.
-/

namespace Dynarec

/-- **A token of a JSON text.** -/
inductive JsonToken where
  /-- A bracket, a colon or a comma. -/
  | mark (c : Char)
  | null
  | bool (b : Bool)
  | number (literal : List Char)
  /-- A string; none if half of a surrogate pair stands alone in it. -/
  | string (text : Option (List Char))
deriving DecidableEq, Repr, Inhabited

namespace JsonToken

/-- The character is a blank between tokens. -/
def isBlank (c : Char) : Bool := c = ' ' || c = '\n' || c = '\t' || c = '\r'

/-- The character is a token of its own. -/
def isMark (c : Char) : Bool :=
  c = '[' || c = ']' || c = '\x7b' || c = '\x7d' || c = ':' || c = ','

/-! ### Numbers -/

/-- Digits, one at least. -/
def readDigits (text : List Char) : Option (List Char × List Char) :=
  let digits := text.takeWhile Decimal.isDigit
  if digits.isEmpty then none else some (digits, text.dropWhile Decimal.isDigit)

/-- The integral part: a zero, or digits that start with another one. -/
def readIntegral (text : List Char) : Option (List Char × List Char) := do
  let (digits, rest) ← readDigits text
  guard (digits.head? ≠ some '0' || digits.length = 1)
  return (digits, rest)

/-- The fraction, which may be missing. -/
def readFraction (text : List Char) : Option (List Char × List Char) :=
  match text with
  | '.' :: rest => (readDigits rest).map fun (digits, rest) => ('.' :: digits, rest)
  | _ => some ([], text)

/-- A sign, which may be missing. -/
def readSign (text : List Char) : List Char × List Char :=
  match text with
  | '+' :: rest => (['+'], rest)
  | '-' :: rest => (['-'], rest)
  | _ => ([], text)

/-- The exponent, which may be missing. -/
def readExponent (text : List Char) : Option (List Char × List Char) :=
  match text with
  | [] => some ([], text)
  | c :: rest =>
    if c = 'e' || c = 'E' then
      let (sign, rest) := readSign rest
      (readDigits rest).map fun (digits, rest) => (c :: sign ++ digits, rest)
    else some ([], text)

/-- A number. -/
def readNumber (text : List Char) : Option (JsonToken × List Char) := do
  let (sign, rest) :=
    match text with
    | '-' :: rest => (['-'], rest)
    | _ => ([], text)
  let (integral, rest) ← readIntegral rest
  let (fraction, rest) ← readFraction rest
  let (exponent, rest) ← readExponent rest
  return (number (sign ++ integral ++ fraction ++ exponent), rest)

/-! ### Strings -/

/-- A unit of a string: a character, or half of a surrogate pair. -/
abbrev Unit16 := Nat

/-- The value of four hexadecimal digits. -/
def hexUnit? (a b c d : Char) : Option Nat := do
  return ((← Hex.value? a) * 4096 + (← Hex.value? b) * 256 + (← Hex.value? c) * 16 +
    (← Hex.value? d))

/-- The character of an escape of one letter. -/
def simpleEscape? : Char → Option Char
  | '"' => some '"'
  | '\\' => some '\\'
  | '/' => some '/'
  | 'b' => some '\x08'
  | 'f' => some '\x0c'
  | 'n' => some '\n'
  | 'r' => some '\r'
  | 't' => some '\t'
  | _ => none

/-- The units of a string after its opening quote, up to the closing one. -/
def readUnits : List Char → Option (List Unit16 × List Char)
  | '"' :: rest => some ([], rest)
  | '\\' :: 'u' :: a :: b :: c :: d :: rest => do
    let unit ← hexUnit? a b c d
    let (units, rest) ← readUnits rest
    return (unit :: units, rest)
  | '\\' :: c :: rest => do
    let c ← simpleEscape? c
    let (units, rest) ← readUnits rest
    return (c.toNat :: units, rest)
  | c :: rest => do
    guard (0x20 ≤ c.toNat)
    let (units, rest) ← readUnits rest
    return (c.toNat :: units, rest)
  | [] => none

/-- The unit is the first half of a surrogate pair. -/
def isHigh (u : Unit16) : Bool := 0xD800 ≤ u && u ≤ 0xDBFF

/-- The unit is the second half of a surrogate pair. -/
def isLow (u : Unit16) : Bool := 0xDC00 ≤ u && u ≤ 0xDFFF

/-- The characters of units; none if half of a pair stands alone. -/
def joinUnits : List Unit16 → Option (List Char)
  | [] => some []
  | [u] => if isHigh u || isLow u then none else some [Char.ofNat u]
  | u :: v :: rest =>
    if isHigh u then
      if isLow v then
        (joinUnits rest).map (Char.ofNat (0x10000 + (u - 0xD800) * 0x400 + (v - 0xDC00)) :: ·)
      else none
    else if isLow u then none
    else (joinUnits (v :: rest)).map (Char.ofNat u :: ·)

/-- A string after its opening quote. -/
def readString (text : List Char) : Option (JsonToken × List Char) :=
  (readUnits text).map fun (units, rest) => (string (joinUnits units), rest)

/-! ### All tokens -/

/-- A fixed word. -/
def readWord (word : String) (token : JsonToken) (text : List Char) :
    Option (JsonToken × List Char) :=
  if word.toList.isPrefixOf text then some (token, text.drop word.length) else none

/-- One token, at a character that is no blank. -/
def readToken (text : List Char) : Option (JsonToken × List Char) :=
  match text with
  | [] => none
  | c :: rest =>
    if isMark c then some (mark c, rest)
    else if c = '"' then readString rest
    else if c = 'n' then readWord "null" null text
    else if c = 't' then readWord "true" (bool true) text
    else if c = 'f' then readWord "false" (bool false) text
    else readNumber text

/-- The tokens of a text of at most `fuel` characters. -/
def readAll : (fuel : Nat) → List Char → Option (List JsonToken)
  | 0, text => if text.isEmpty then some [] else none
  | fuel + 1, text =>
    match text.dropWhile isBlank with
    | [] => some []
    | rest => do
      let (token, rest) ← readToken rest
      let tokens ← readAll fuel rest
      return token :: tokens

/-- **The tokens of a text.** -/
def ofChars? (text : List Char) : Option (List JsonToken) := readAll text.length text

end JsonToken

end Dynarec
