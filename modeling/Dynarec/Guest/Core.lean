import Dynarec.Guest.Instruction
import Dynarec.Guest.Register

/-!
# Architectural state of the guest core

A `Core` holds the scalar registers, the vector file with its control registers, the program
counter with an open delay slot if there is one, the cycles left in the current slice, and whether
the core still runs.
-/

namespace Dynarec

/-- Whether the core runs, and if not, why. -/
inductive RunState where
  | running
  /-- Stopped by the guest through the system. -/
  | halted
  /-- Stopped by a breakpoint instruction at `pc`. -/
  | stopped (pc : UInt32)
  /-- Stopped at `pc` by a word that cannot be executed; zero when no word could be fetched. -/
  | faulted (pc word : UInt32)
deriving DecidableEq, Repr, Inhabited

/-- **The state of the core.** -/
structure Core where
  /-- General registers.  Register zero is never written. -/
  gprs : Vector UInt32 32
  /-- Upper half of a product, or remainder. -/
  hi : UInt32
  /-- Lower half of a product, or quotient. -/
  lo : UInt32
  pc : UInt32
  /-- The vector file. -/
  elements : Vector Single 128
  /-- Control registers of the vector unit: the three pending modifiers, then the condition
  word. -/
  controls : Vector UInt32 16
  /-- Cycles left in the current slice; at most zero when it is used up. -/
  downcount : Int32
  runState : RunState
  /-- The next instruction is the delay slot of a branch. -/
  inDelaySlot : Bool
  /-- Where the open delay slot leads. -/
  branchTarget : Option UInt32
  /-- The outside asked for control at the next block boundary. -/
  exitRequested : Bool
deriving DecidableEq

namespace Core

/-- The control register with the condition word. -/
def conditionControl : Fin 16 := 3

/-- A core about to run from `pc`, with all registers zero and no pending modifiers. -/
def start (pc : UInt32) : Core where
  gprs := Vector.replicate 32 0
  hi := 0
  lo := 0
  pc := pc
  elements := Vector.replicate 128 Single.zero
  controls :=
    ((Vector.replicate 16 0).set 0 ModifierSlot.source.identity).set 1 ModifierSlot.target.identity
  downcount := 0
  runState := .running
  inDelaySlot := false
  branchTarget := none
  exitRequested := false

instance : Inhabited Core := ⟨start 0⟩

/-! ### Registers -/

/-- A general register. -/
def gpr (c : Core) (n : Fin 32) : UInt32 := c.gprs[n]

/-- Write a general register; writes to register zero have no effect. -/
def setGpr (c : Core) (n : Fin 32) (value : UInt32) : Core :=
  if n = 0 then c else { c with gprs := c.gprs.set n value }

/-- A control register of the vector unit. -/
def control (c : Core) (index : Fin 16) : UInt32 := c.controls[index]

/-- The condition word. -/
def condition (c : Core) : UInt32 := c.control conditionControl

/-- Write a control register of the vector unit. -/
def setControl (c : Core) (index : Fin 16) (value : UInt32) : Core :=
  { c with controls := c.controls.set index value }

/-- A scalar register; register zero reads as zero. -/
def reg (c : Core) : GuestReg → UInt32
  | .gpr n => if n = 0 then 0 else c.gprs[n]
  | .hi => c.hi
  | .lo => c.lo
  | .condition => c.condition

/-- Write a scalar register. -/
def setReg (c : Core) (r : GuestReg) (value : UInt32) : Core :=
  match r with
  | .gpr n => c.setGpr n value
  | .hi => { c with hi := value }
  | .lo => { c with lo := value }
  | .condition => c.setControl conditionControl value

/-- An element of the vector file. -/
def element (c : Core) (e : Element) : Single := c.elements[e]

/-- Write an element. -/
def setElement (c : Core) (e : Element) (value : Single) : Core :=
  { c with elements := c.elements.set e value }

/-! ### Pending modifiers -/

/-- The pending modifier of a slot. -/
def modifier (c : Core) (slot : ModifierSlot) : UInt32 := c.control slot.control

/-- Set a pending modifier. -/
def setModifier (c : Core) (slot : ModifierSlot) (value : UInt32) : Core :=
  c.setControl slot.control value

/-- No modifier is pending. -/
def hasDefaultModifiers (c : Core) : Bool :=
  c.modifier .source == ModifierSlot.source.identity &&
    c.modifier .target == ModifierSlot.target.identity &&
    c.modifier .destination == ModifierSlot.destination.identity

/-- Drop all pending modifiers. -/
def clearModifiers (c : Core) : Core :=
  ModifierSlot.all.foldl (fun c slot => c.setModifier slot slot.identity) c

/-! ### Control -/

/-- The core runs. -/
def isRunning (c : Core) : Bool := c.runState == .running

/-- Ask for control at the next block boundary. -/
def requestExit (c : Core) : Core := { c with exitRequested := true }

end Core

end Dynarec
