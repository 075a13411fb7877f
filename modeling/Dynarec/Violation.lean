/-!
# Broken preconditions

Address and cycle arithmetic is done on 32-bit words, and a few operations are only meaningful
when their arguments keep a promise: a downcount can still be lowered, the byte after a range
still has an address, a code offset has been emitted.  This file names each promise that can be
broken.  An operation that meets a broken promise answers with a `Violation` instead of a value,
and nothing after it runs.
-/

namespace Dynarec

/-- **A broken precondition.**  Each constructor is one promise that an operation relies on. -/
inductive Violation where
  /-- An instruction retires while the downcount holds its least value. -/
  | downcountUnderflow
  /-- The byte after a stored range has no 32-bit address. -/
  | storeEnd (address : UInt32)
  /-- A block ends below its own start, because its end wrapped around the address space. -/
  | blockEnd (start stop : UInt32)
  /-- A block would be registered over a valid one. -/
  | overlappingBlock (start stop other : UInt32)
  /-- The cycles used by one slice do not fit a signed word. -/
  | sliceCycles
  /-- A bit field is empty, or its last bit has no position. -/
  | bitField
  /-- A condition-code merge is asked for more lanes than a word has bits. -/
  | tooManyLanes
  /-- A code word that was never emitted is replaced. -/
  | patchOutside (offset : Nat)
  /-- A label that is not live is bound. -/
  | unknownLabel
  /-- A pending modifier is read while it is not known. -/
  | unknownModifier
  /-- An image longer than the address space is copied over a shorter window. -/
  | imageLength (length : Nat)
  /-- A loop ran out of the steps it was given. -/
  | outOfSteps
deriving DecidableEq, Repr, Inhabited

end Dynarec
