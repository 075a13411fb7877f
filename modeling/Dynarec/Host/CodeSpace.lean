import Dynarec.Host.Word

/-!
# Code space

Host words live in a space of fixed capacity and are named by their offset in words.  Emission at
the end of the space writes nothing; it sets the overflow flag, which the compiler looks at when
a block is finished.  Forward jumps inside a block go through labels: the word is emitted first and
its immediate is filled in by `resolve` once the label is bound.
-/

namespace Dynarec

/-- A label, numbered from the last time that the labels were dropped. -/
abbrev Label := Nat

/-- **A code space.** -/
structure CodeSpace where
  /-- Emitted words. -/
  words : Array HostWord
  /-- Number of words that fit. -/
  capacity : Nat
  /-- A word did not fit. -/
  overflowed : Bool
  /-- Bound position of every label. -/
  labels : Array (Option Nat)
  /-- Words whose immediate is the position of a label, oldest first. -/
  references : List (Nat × Label)

namespace CodeSpace

/-- Sizes of memory are below this number. -/
def sizeLimit : Nat := 2 ^ 64

/-- **An empty space of `size` bytes.**  There is none for a size that holds no word, or that
cannot be rounded up to whole pages. -/
def create? (size : Nat) : Option CodeSpace :=
  let capacity := size / HostWord.byteSize
  if capacity = 0 ∨ size + (pageSize - 1) ≥ sizeLimit then none
  else some
    { words := #[], capacity := capacity, overflowed := false, labels := #[], references := [] }

/-- Offset of the next word. -/
def offset (c : CodeSpace) : Nat := c.words.size

/-- Number of words that still fit. -/
def spaceLeft (c : CodeSpace) : Nat := c.capacity - c.words.size

/-- Emit a word, if it fits. -/
def emit (c : CodeSpace) (w : HostWord) : CodeSpace :=
  if c.offset < c.capacity then { c with words := c.words.push w }
  else { c with overflowed := true }

/-- An emitted word. -/
def word? (c : CodeSpace) (offset : Nat) : Option HostWord := c.words[offset]?

/-- The operation at an offset. -/
def operation? (c : CodeSpace) (offset : Nat) : Option Operation :=
  (c.word? offset).bind Operation.decode?

/-- Replace an emitted word. -/
def patch (c : CodeSpace) (offset : Nat) (w : HostWord) : Except Violation CodeSpace :=
  if offset < c.offset then .ok { c with words := c.words.setIfInBounds offset w }
  else .error (.patchOutside offset)

/-- Drop the words from `offset` on, and all labels. -/
def truncate (c : CodeSpace) (offset : Nat) : CodeSpace :=
  { c with
    words := c.words.shrink offset
    overflowed := false
    labels := #[]
    references := [] }

/-- Drop everything. -/
def reset (c : CodeSpace) : CodeSpace := c.truncate 0

/-! ### Labels -/

/-- A new label, not bound yet. -/
def newLabel (c : CodeSpace) : Label × CodeSpace :=
  (c.labels.size, { c with labels := c.labels.push none })

/-- Bind a label to the current offset, if it is live. -/
def place (c : CodeSpace) (label : Label) : CodeSpace :=
  { c with labels := c.labels.setIfInBounds label (some c.offset) }

/-- Bind a live label to the current offset. -/
def bind (c : CodeSpace) (label : Label) : Except Violation CodeSpace :=
  if label < c.labels.size then .ok (c.place label) else .error .unknownLabel

/-- Where a label is bound. -/
def labelOffset? (c : CodeSpace) (label : Label) : Option Nat := (c.labels[label]?).join

/-- Emit a word whose immediate is the position of a label. -/
def emitReference (c : CodeSpace) (w : HostWord) (label : Label) : CodeSpace :=
  let position := c.offset
  let c := c.emit w
  if c.overflowed then c else { c with references := c.references ++ [(position, label)] }

/-- Give the word at an offset a new immediate. -/
def setImmediate (c : CodeSpace) (offset target : Nat) : CodeSpace :=
  { c with words := c.words.modify offset fun w => { w with imm := UInt32.ofNat target } }

/-- Fill in references in order, up to the first whose label is not bound. -/
def resolveReferences (c : CodeSpace) : List (Nat × Label) → Except Label Unit × CodeSpace
  | [] => (.ok (), { c with labels := #[] })
  | (position, label) :: rest =>
    match c.labelOffset? label with
    | none => (.error label, c)
    | some target => (c.setImmediate position target).resolveReferences rest

/-- **Fill in all references.**  The references are dropped in any case, the labels only when every
reference was filled in. -/
def resolve (c : CodeSpace) : Except Label Unit × CodeSpace :=
  { c with references := [] }.resolveReferences c.references

/-- The message for a label that is not bound. -/
def undefinedLabelMessage (label : Label) : String := s!"undefined label: {label}"

end CodeSpace

end Dynarec
