import Dynarec.Toml.Moment
import Dynarec.Toml.Number
import Dynarec.Toml.Table

/-!
# TOML texts

A text is a sequence of lines: keys with values, headers of tables, headers of tables in arrays,
comments and empty lines.  `Toml.read?` reads the lines first and then fills the tables.
-/

namespace Dynarec.Toml

open Scan

/-! ### Values -/

/-- A truth value. -/
def boolean : Scan Bool := (do word "true"; return true) <|> (do word "false"; return false)

/-- A value without parts.  A fraction starts as an integer does, and a date as a fraction. -/
def scalar : Scan TomlValue :=
  TomlValue.string <$> string <|> TomlValue.moment <$> moment <|>
    TomlValue.fraction <$> fraction <|> TomlValue.integer <$> integer <|>
    TomlValue.boolean <$> boolean

/-- An array.  It may go over several lines and end with a comma. -/
def array (item : Scan TomlValue) : Scan TomlValue := do
  char '['
  let items ← maybe do
    let items ← separated (do space; let v ← item; space; return v) (char ',')
    let _ ← maybe (char ',')
    return items
  space
  char ']'
  return .array (items.getD [])

/-- A key and its value. -/
def line (value : Scan TomlValue) : Scan (KeyPath × TomlValue) := do
  let key ← keyPath
  char '='
  blanks
  return (key, ← value)

/-- A table in braces.  It stays on one line and does not end with a comma. -/
def inlineTable (value : Scan TomlValue) : Scan TomlValue := do
  char '\x7b'
  let lines ← maybe (separated (do let l ← line value; blanks; return l) (char ','))
  blanks
  char '\x7d'
  let entries ← TomlEntries.assignAll [] (lines.getD [])
  return .table (TomlEntries.finish entries)

/-- A value in which arrays and tables are nested so deep at most. -/
def valueWithin : (nesting : Nat) → Scan TomlValue
  | 0 => scalar
  | nesting + 1 =>
    scalar <|> array (valueWithin nesting) <|> inlineTable (valueWithin nesting)

/-- **A value.** -/
def value : Scan TomlValue := valueWithin (nestingLimit - 1)

/-! ### Lines -/

/-- **A line that says something.** -/
inductive Statement where
  | assign (key : KeyPath) (v : TomlValue)
  | table (key : KeyPath)
  /-- A table of an array. -/
  | element (key : KeyPath)
deriving Inhabited

/-- A header of a table in an array. -/
def elementHeader : Scan Statement := do
  word "[["
  let key ← keyPath
  word "]]"
  lineEnd
  return .element key

/-- A header of a table. -/
def tableHeader : Scan Statement := do
  refuse "[["
  char '['
  let key ← keyPath
  char ']'
  lineEnd
  return .table key

/-- A key with its value. -/
def assignment : Scan Statement := do
  let (key, v) ← line value
  lineEnd
  return .assign key v

/-- A line, which may say nothing. -/
def anyLine : Scan (Option Statement) :=
  (do newLine; return none) <|> (do comment; newLine <|> endOfText; return none) <|>
    some <$> elementHeader <|> some <$> tableHeader <|> some <$> assignment

/-- All lines that say something. -/
def statements : Scan (List Statement) := do
  let _ ← maybe (char '\uFEFF')
  blanks
  let lines ← many do
    let l ← anyLine
    blanks
    return l
  return lines.filterMap id

/-! ### Sections -/

/-- A header with the lines up to the next one. -/
structure Section where
  key : KeyPath
  /-- The table is one of an array. -/
  isElement : Bool
  lines : List (KeyPath × TomlValue)
deriving Inhabited

/-- The lines before the first header, and the sections. -/
def sections : List Statement → List (KeyPath × TomlValue) × List Section
  | [] => ([], [])
  | .assign key v :: rest =>
    let (lines, later) := sections rest
    ((key, v) :: lines, later)
  | .table key :: rest =>
    let (lines, later) := sections rest
    ([], ⟨key, false, lines⟩ :: later)
  | .element key :: rest =>
    let (lines, later) := sections rest
    ([], ⟨key, true, lines⟩ :: later)

/-- Add a section. -/
def Section.addTo (s : Section) (entries : TomlEntries) : Option TomlEntries :=
  let change := if s.isElement then TomlEntries.appendTable s.key.last s.lines
    else TomlEntries.openTable s.key.last s.lines
  TomlEntries.descend change s.key.parents entries

/-- The table that statements describe. -/
def build? (l : List Statement) : Option TomlEntries := do
  let (lines, later) := sections l
  later.foldlM (fun entries s => s.addTo entries) (← TomlEntries.assignAll [] lines)

/-- **The table that a text describes.** -/
def read? (text : String) : Option (List (String × TomlValue)) := do
  let l ← statements.all? text.toList
  return TomlEntries.finish (← build? l)

end Dynarec.Toml
