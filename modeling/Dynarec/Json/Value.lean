import Dynarec.Text.Decimal
import Dynarec.Text.Hex

/-!
# JSON values and their text

Saved states and state dumps are JSON.  A number keeps the text that it is written with; an object
keeps its fields in order, so that a repeated key can be told.  `compact` writes a value without any
blanks, `pretty` with one item per line, indented by two blanks per level.
-/

namespace Dynarec

/-- **A JSON value.** -/
inductive JsonValue where
  | null
  | bool (b : Bool)
  | number (literal : String)
  /-- A string; none if half of a surrogate pair stands alone in it, which is no text. -/
  | string (text : Option String)
  | array (items : List JsonValue)
  | object (fields : List (Option String × JsonValue))
deriving Inhabited

namespace JsonValue

/-! ### Making values -/

/-- A natural number. -/
def ofNat (n : Nat) : JsonValue := number (Decimal.text n)

/-- An integer. -/
def ofInt (n : Int) : JsonValue := number (Decimal.signedText n)

/-- A text. -/
def ofString (text : String) : JsonValue := string (some text)

/-- An object. -/
def record (fields : List (String × JsonValue)) : JsonValue :=
  object (fields.map fun (key, value) => (some key, value))

/-! ### Taking values apart -/

/-- A number that is written with digits only. -/
def natural? : JsonValue → Option Nat
  | number literal =>
    if literal.toList.all Decimal.isDigit then some (Decimal.value literal.toList) else none
  | _ => none

/-- A number that is written with digits only and fits a word. -/
def word? (v : JsonValue) : Option UInt32 := do
  let n ← v.natural?
  guard (n < 2 ^ 32)
  return UInt32.ofNat n

/-- A truth value. -/
def bool? : JsonValue → Option Bool
  | bool b => some b
  | _ => none

/-- The items of an array. -/
def items? : JsonValue → Option (List JsonValue)
  | array items => some items
  | _ => none

/-! ### Text -/

/-- One character inside a string. -/
def escape (c : Char) : List Char :=
  match c with
  | '"' => ['\\', '"']
  | '\\' => ['\\', '\\']
  | '\n' => ['\\', 'n']
  | '\r' => ['\\', 'r']
  | '\t' => ['\\', 't']
  | c => if c.toNat < 0x20 then '\\' :: 'u' :: Hex.digits 4 c.toNat else [c]

/-- A string in quotes.  What is no text is written as the character for malformed text. -/
def quote (text : Option String) : List Char :=
  '"' :: ((text.getD "\uFFFD").toList.flatMap escape ++ ['"'])

/-- Items with commas between them. -/
def separated (separator : List Char) : List (List Char) → List Char
  | [] => []
  | [item] => item
  | item :: rest => item ++ separator ++ separated separator rest

/-- A bracketed list of items, without blanks. -/
def bracket (left right : Char) (items : List (List Char)) : List Char :=
  left :: (separated [','] items ++ [right])

mutual

/-- A value without blanks. -/
def compactChars : JsonValue → List Char
  | null => "null".toList
  | bool b => (if b then "true" else "false").toList
  | number literal => literal.toList
  | string text => quote text
  | array items => bracket '[' ']' (compactItems items)
  | object fields => bracket '{' '}' (compactFields fields)

/-- Items without blanks. -/
def compactItems : List JsonValue → List (List Char)
  | [] => []
  | item :: rest => compactChars item :: compactItems rest

/-- Fields without blanks. -/
def compactFields : List (Option String × JsonValue) → List (List Char)
  | [] => []
  | (key, value) :: rest => (quote key ++ ':' :: compactChars value) :: compactFields rest

end

/-- **A value without blanks.** -/
def compact (v : JsonValue) : String := String.ofList v.compactChars

/-- The start of a line at a level. -/
def newLine (level : Nat) : List Char := '\n' :: List.replicate (2 * level) ' '

/-- A bracketed list of items, one per line; brackets around nothing stay together. -/
def block (level : Nat) (left right : Char) (items : List (List Char)) : List Char :=
  if items.isEmpty then [left, right]
  else
    left :: (newLine (level + 1) ++ separated (',' :: newLine (level + 1)) items ++
      newLine level ++ [right])

mutual

/-- A value at a level. -/
def prettyChars (level : Nat) : JsonValue → List Char
  | null => "null".toList
  | bool b => (if b then "true" else "false").toList
  | number literal => literal.toList
  | string text => quote text
  | array items => block level '[' ']' (prettyItems (level + 1) items)
  | object fields => block level '{' '}' (prettyFields (level + 1) fields)

/-- Items at a level. -/
def prettyItems (level : Nat) : List JsonValue → List (List Char)
  | [] => []
  | item :: rest => prettyChars level item :: prettyItems level rest

/-- Fields at a level. -/
def prettyFields (level : Nat) : List (Option String × JsonValue) → List (List Char)
  | [] => []
  | (key, value) :: rest =>
    (quote key ++ ':' :: ' ' :: prettyChars level value) :: prettyFields level rest

end

/-- **A value with one item per line.** -/
def pretty (v : JsonValue) : String := String.ofList (v.prettyChars 0)

end JsonValue

end Dynarec
