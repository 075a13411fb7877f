import Dynarec.Numerals

/-!
# Compiled blocks

A block is the host code of guest instructions that run one after the other.  Its host code lies
in one stretch of the code space.  It leaves through exits; one that leads to a known guest address
is a single word, which can be turned into a jump to the code of that address.
-/

namespace Dynarec

/-- An exit to a known guest address. -/
structure Exit where
  /-- Where the guest goes on. -/
  target : UInt32
  /-- Offset of the word that is replaced when the exit is linked. -/
  stub : Nat
  /-- The word jumps to the block at the target. -/
  linked : Bool := false
deriving DecidableEq, Repr, Inhabited

/-- One exit of one stored block: the number of the block, and the position of the exit in it. -/
structure ExitRef where
  block : Nat
  exit : Nat
deriving DecidableEq, Repr, Inhabited

/-- **A compiled block.** -/
structure Block where
  /-- Address of the first guest instruction. -/
  start : UInt32
  /-- Address after the last guest byte, delay slot included. -/
  stop : UInt32
  /-- Offset where linked exits enter; the downcount and pending events are checked there. -/
  checkedEntry : Nat
  /-- Offset where the dispatcher enters. -/
  normalEntry : Nat
  /-- Offset of the first host word. -/
  codeStart : Nat
  /-- Offset after the last host word. -/
  codeEnd : Nat
  exits : Array Exit
  /-- Entry is guarded: no modifier may be pending. -/
  assumesDefault : Bool
  /-- Number of guest instructions. -/
  instructions : UInt32
  /-- The block was not dropped. -/
  valid : Bool := true
  /-- Linked exits that jump into this block. -/
  incoming : List ExitRef := []
deriving DecidableEq, Repr, Inhabited

namespace Block

/-- The guest byte at an address belongs to the block. -/
def contains (b : Block) (address : UInt32) : Bool := b.start ≤ address && address < b.stop

/-- The block shares a guest byte with `[start, stop)`. -/
def overlaps (b : Block) (start stop : UInt32) : Bool := b.start < stop && start < b.stop

/-- Change one exit. -/
def modifyExit (b : Block) (exit : Nat) (f : Exit → Exit) : Block :=
  { b with exits := b.exits.modify exit f }

end Block

end Dynarec
