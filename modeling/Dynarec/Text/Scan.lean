/-!
# Scanners

A scanner reads something from the start of a text and leaves the rest, or it refuses.  `a <|> b`
lets `b` read where `a` refuses.  A repetition goes on as long as its scanner reads, and no longer
than the text has characters, so scanners always end.
-/

namespace Dynarec

/-- **A scanner.** -/
abbrev Scan (α : Type) := StateT (List Char) Option α

namespace Scan

/-- One character of a class. -/
def charIf (p : Char → Bool) : Scan Char := fun text =>
  match text with
  | c :: rest => if p c then some (c, rest) else none
  | [] => none

/-- One character, whichever it is. -/
def anyChar : Scan Char := charIf fun _ => true

/-- This character. -/
def char (c : Char) : Scan Unit := do
  let _ ← charIf (· == c)

/-- These characters. -/
def word (w : String) : Scan Unit := fun text =>
  if w.toList.isPrefixOf text then some ((), text.drop w.length) else none

/-- The characters of a class that come next, if any. -/
def charsWhile (p : Char → Bool) : Scan (List Char) := fun text =>
  some (text.takeWhile p, text.dropWhile p)

/-- The text does not start so.  Nothing is read. -/
def refuse (w : String) : Scan Unit := fun text =>
  if w.toList.isPrefixOf text then none else some ((), text)

/-- The text is used up. -/
def endOfText : Scan Unit := fun text => if text.isEmpty then some ((), []) else none

/-- What comes next, or nothing. -/
def maybe {α : Type} (s : Scan α) : Scan (Option α) := (some <$> s) <|> pure none

/-- So many in a row. -/
def exactly {α : Type} (s : Scan α) : (count : Nat) → Scan (List α)
  | 0 => pure []
  | count + 1 => do
    let x ← s
    let rest ← exactly s count
    return x :: rest

/-- As many in a row as there are, up to a limit. -/
def atMost {α : Type} (s : Scan α) : (limit : Nat) → Scan (List α)
  | 0 => pure []
  | limit + 1 =>
    (do
      let x ← s
      let rest ← atMost s limit
      return x :: rest) <|> pure []

/-- As many in a row as there are. -/
def many {α : Type} (s : Scan α) : Scan (List α) := fun text => atMost s text.length text

/-- Items with something between them, one at least. -/
def separated {α : Type} (item : Scan α) (separator : Scan Unit) : Scan (List α) := do
  let first ← item
  let rest ← many do
    separator
    item
  return first :: rest

/-- The characters that are read, in place of what they mean. -/
def literal {α : Type} (s : Scan α) : Scan (List Char) := fun text =>
  (s text).map fun (_, rest) => (text.take (text.length - rest.length), rest)

/-- Read a whole text. -/
def all? {α : Type} (s : Scan α) (text : List Char) : Option α :=
  match s text with
  | some (x, []) => some x
  | _ => none

end Scan

end Dynarec
