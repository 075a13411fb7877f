import Dynarec.Text.Radix
import Dynarec.Text.Scan

/-!
# Blanks, keys and strings

The parts of a TOML text that are read character by character.  A string stands between single or
double quotes; between three of them it may go over several lines.  Double quotes allow escapes.
-/

namespace Dynarec.Toml

open Scan

/-! ### Blanks and comments -/

/-- A blank within a line. -/
def isBlank (c : Char) : Bool := c == ' ' || c == '\t'

/-- The character may stand in a line of text: it is no control character, or a tab. -/
def isPlain (c : Char) : Bool := c == '\t' || (0x20 ≤ c.toNat && c.toNat != 0x7F)

/-- Blanks within a line. -/
def blanks : Scan Unit := do
  let _ ← charsWhile isBlank

/-- The end of a line. -/
def newLine : Scan Unit := char '\n' <|> word "\r\n"

/-- A comment, up to the end of its line. -/
def comment : Scan Unit := do
  char '#'
  let _ ← charsWhile isPlain

/-- What may follow at the end of a line. -/
def lineEnd : Scan Unit := do
  blanks
  let _ ← maybe comment
  newLine <|> endOfText

/-- Blanks, ends of lines and comments. -/
def space : Scan Unit := do
  blanks
  let _ ← many do
    newLine <|> do
      comment
      newLine
    blanks

/-! ### Escapes -/

/-- The character with a number of so many hexadecimal digits. -/
def codePoint (count : Nat) : Scan Char := do
  let n := Radix.value 16 (← exactly (charIf (Radix.isDigit 16)) count)
  guard n.isValidChar
  return Char.ofNat n

/-- An escaped character. -/
def escaped : Scan Char := do
  char '\\'
  match ← anyChar with
  | 'b' => return '\x08'
  | 'f' => return '\x0c'
  | 'n' => return '\n'
  | 'r' => return '\r'
  | 't' => return '\t'
  | 'u' => codePoint 4
  | 'U' => codePoint 8
  | c =>
    guard (c == '\\' || c == '"')
    return c

/-- A line that goes on after the blanks and empty lines that follow. -/
def continued : Scan Unit := do
  char '\\'
  blanks
  newLine
  let _ ← many do
    (do let _ ← charIf isBlank) <|> newLine

/-! ### Strings on one line -/

/-- The single quote. -/
def singleQuote : Char := '\x27'

/-- A character between double quotes that means itself. -/
def unescaped : Scan Char := charIf fun c => isPlain c && c != '"' && c != '\\'

/-- A character between single quotes. -/
def verbatim : Scan Char := charIf fun c => isPlain c && c != singleQuote

/-- A string in double quotes. -/
def basicString : Scan String := do
  char '"'
  let chars ← many (unescaped <|> escaped)
  char '"'
  return String.ofList chars

/-- A string in single quotes. -/
def literalString : Scan String := do
  char singleQuote
  let chars ← many verbatim
  char singleQuote
  return String.ofList chars

/-! ### Strings on several lines -/

/-- One, two or three quotes in a row. -/
def quotes (quote : Char) (count : Nat) : String := String.ofList (List.replicate count quote)

/-- A quote that does not belong to the closing ones. -/
def innerQuote (quote : Char) : Scan Char := do
  refuse (quotes quote 3)
  char quote
  return quote

/-- The closing quotes.  Up to two more may stand in front of them, as part of the string. -/
def closingQuotes (quote : Char) : Scan (List Char) :=
  (do word (quotes quote 5); return [quote, quote]) <|>
    (do word (quotes quote 4); return [quote]) <|>
    (do word (quotes quote 3); return [])

/-- A string between three quotes, from its parts.  A line end right after the opening quotes does
not count. -/
def multiline (quote : Char) (part : Scan (List Char)) : Scan String := do
  word (quotes quote 3)
  let _ ← maybe newLine
  let parts ← many (part <|> List.singleton <$> innerQuote quote <|> (do newLine; return ['\n']))
  let last ← closingQuotes quote
  return String.ofList (parts.flatten ++ last)

/-- A string between three double quotes. -/
def multilineBasic : Scan String :=
  multiline '"'
    (List.singleton <$> unescaped <|> (do continued; return []) <|> List.singleton <$> escaped)

/-- A string between three single quotes. -/
def multilineLiteral : Scan String := multiline singleQuote (List.singleton <$> verbatim)

/-- **A string.** -/
def string : Scan String := multilineBasic <|> basicString <|> multilineLiteral <|> literalString

/-! ### Keys -/

/-- A character of a key without quotes. -/
def isBare (c : Char) : Bool := c.isAlphanum || c == '-' || c == '_'

/-- A key without quotes. -/
def bareKey : Scan String := do
  let chars ← charsWhile isBare
  guard !chars.isEmpty
  return String.ofList chars

/-- One part of a key, with blanks around it. -/
def keyPart : Scan String := do
  blanks
  let key ← basicString <|> literalString <|> bareKey
  blanks
  return key

/-- Tables may be nested less deep than this. -/
def nestingLimit : Nat := 80

/-- **A key**: its last part, and the parts before it, which lead to a table. -/
structure KeyPath where
  parents : List String
  last : String
deriving DecidableEq, Repr, Inhabited

/-- A key from its parts, one at least. -/
def KeyPath.ofParts? (parts : List String) : Option KeyPath := do
  return ⟨parts.dropLast, ← parts.getLast?⟩

/-- A key with all its parts. -/
def keyPath : Scan KeyPath := do
  let parts ← separated keyPart (char '.')
  guard (parts.length < nestingLimit)
  KeyPath.ofParts? parts

end Dynarec.Toml
