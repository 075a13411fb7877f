import Dynarec.Guest.Vector

/-!
# What a lowering knows about pending modifiers

While a block is compiled, each modifier slot is either unknown, or known and equal to its control
register, or known and still to be written to it.  An instruction that uses modifiers can be
compiled only when all three are known.
-/

namespace Dynarec

/-- What is known about one slot. -/
inductive Knowledge where
  | unknown
  /-- The control register holds this modifier. -/
  | clean (modifier : UInt32)
  /-- The modifier, which the control register does not hold yet. -/
  | dirty (modifier : UInt32)
deriving DecidableEq, Repr, Inhabited

namespace Knowledge

/-- The modifier, if it is known. -/
def value? : Knowledge → Option UInt32
  | unknown => none
  | clean value | dirty value => some value

/-- The slot is known. -/
def isKnown (k : Knowledge) : Bool := k.value?.isSome

/-- The control register is up to date now. -/
def flushed : Knowledge → Knowledge
  | dirty value => clean value
  | k => k

end Knowledge

/-- What a block may assume about pending modifiers when it is entered. -/
inductive EntryAssumption where
  /-- None is pending; the entry is guarded. -/
  | noModifiers
  /-- Nothing. -/
  | anyModifiers
deriving DecidableEq, Repr, Inhabited

/-- **Knowledge about all three slots.** -/
structure ModifierTracker where
  source : Knowledge
  target : Knowledge
  destination : Knowledge
deriving DecidableEq, Repr, Inhabited

namespace ModifierTracker

/-- What is known about a slot. -/
def get (t : ModifierTracker) : ModifierSlot → Knowledge
  | .source => t.source
  | .target => t.target
  | .destination => t.destination

/-- Record what is known about a slot. -/
def set (t : ModifierTracker) (slot : ModifierSlot) (k : Knowledge) : ModifierTracker :=
  match slot with
  | .source => { t with source := k }
  | .target => { t with target := k }
  | .destination => { t with destination := k }

/-- Knowledge about every slot, from a rule per slot. -/
def ofRule (rule : ModifierSlot → Knowledge) : ModifierTracker :=
  ⟨rule .source, rule .target, rule .destination⟩

/-- No modifier is pending, and the control registers hold none. -/
def identity : ModifierTracker := ofRule fun slot => .clean slot.identity

/-- Nothing is known. -/
def unknown : ModifierTracker := ofRule fun _ => .unknown

/-- Knowledge at the entry of a block. -/
def start : EntryAssumption → ModifierTracker
  | .noModifiers => identity
  | .anyModifiers => unknown

/-- An instruction sets a slot. -/
def setPending (t : ModifierTracker) (slot : ModifierSlot) (modifier : UInt32) :
    ModifierTracker :=
  t.set slot (.dirty modifier)

/-- The modifier that an instruction reads through a slot, if the slot is known. -/
def read? (t : ModifierTracker) (slot : ModifierSlot) : Option UInt32 := (t.get slot).value?

/-- The instruction that was executed used up all modifiers. -/
def consume (t : ModifierTracker) : ModifierTracker :=
  ofRule fun slot =>
    if t.read? slot = some slot.identity then t.get slot else .dirty slot.identity

/-- A slot was set to something that is not known. -/
def forget (t : ModifierTracker) (slot : ModifierSlot) : ModifierTracker := t.set slot .unknown

/-- The three modifiers that the next instruction uses. -/
structure Known where
  source : UInt32
  target : UInt32
  destination : UInt32
deriving DecidableEq, Repr, Inhabited

/-- The three modifiers, if all are known. -/
def known? (t : ModifierTracker) : Option Known := do
  return ⟨← t.source.value?, ← t.target.value?, ← t.destination.value?⟩

/-- Some slot is not known. -/
def hasUnknown (t : ModifierTracker) : Bool := ModifierSlot.all.any fun slot => !(t.get slot).isKnown

/-- It is known that no modifier is pending. -/
def hasNoModifier (t : ModifierTracker) : Bool :=
  ModifierSlot.all.all fun slot => t.read? slot == some slot.identity

/-- A modifier may be pending: a slot is not known, or holds one, or results are masked. -/
def mayHaveModifier (t : ModifierTracker) : Bool :=
  t.hasUnknown || (ModifierSlot.all.any fun slot => t.read? slot != some slot.identity) ||
    t.destination.value?.any fun modifier => writeMask modifier != 0

/-- Slots whose control register is not up to date, with their modifiers. -/
def dirtySlots (t : ModifierTracker) : List (ModifierSlot × UInt32) :=
  ModifierSlot.all.filterMap fun slot =>
    match t.get slot with
    | .dirty modifier => some (slot, modifier)
    | _ => none

/-- All control registers are up to date now. -/
def markFlushed (t : ModifierTracker) : ModifierTracker := ofRule fun slot => (t.get slot).flushed

end ModifierTracker

/-- How far the lowering of a block has come.  Every instruction counts as one cycle. -/
structure Progress where
  /-- The next guest instruction. -/
  pc : UInt32
  /-- Instructions compiled so far. -/
  count : UInt32
deriving DecidableEq, Repr, Inhabited

namespace Progress

/-- Nothing is compiled yet. -/
def start (pc : UInt32) : Progress := ⟨pc, 0⟩

/-- One more instruction. -/
def charge (p : Progress) : Progress := { p with count := p.count + 1 }

end Progress

end Dynarec
