import Dynarec.Block.Basic
import Dynarec.Guest.Memory
import Dynarec.Host.CodeSpace
import Dynarec.Options
import Dynarec.Lower.Elements
import Dynarec.Lower.Modifiers

/-!
# A lowering in progress

The lowering of a block reads a fixed `Setting` and grows a `Builder`: the code emitted so far,
the two register caches, what is known about pending modifiers, and the exits.  This file has the
actions that every lowering rule is made of.  They keep one order: code that an action on a cache
asks for is emitted before the register is handed out.
-/

namespace Dynarec

/-- **What the lowering of a block reads.** -/
structure Setting where
  memory : Memory
  options : Options
  /-- Address of the first guest instruction. -/
  start : UInt32
  /-- What may be assumed when the block is entered. -/
  entry : EntryAssumption
  /-- The block has to end in front of this address. -/
  limit : Option UInt32

/-- **What the lowering of a block grows.** -/
structure Builder where
  code : CodeSpace
  scalars : ScalarCache
  elements : ElementCache
  modifiers : ModifierTracker
  progress : Progress
  exits : Array Exit

/-- Nothing is compiled yet. -/
def Builder.start (code : CodeSpace) (setting : Setting) : Builder where
  code := code
  scalars := ScalarCache.empty
  elements := ElementCache.empty
  modifiers := ModifierTracker.start setting.entry
  progress := Progress.start setting.start
  exits := #[]

/-- A step of a lowering. -/
abbrev Lowering := ReaderT Setting (StateT Builder (Except Failure))

namespace Lowering

/-! ### Emission -/

/-- Emit operations in order. -/
def emitAll (ops : List Operation) : Lowering Unit :=
  modify fun b => { b with code := ops.foldl (fun c op => c.emit op.encode) b.code }

/-- Emit one operation. -/
def emit (op : Operation) : Lowering Unit :=
  modify fun b => { b with code := b.code.emit op.encode }

/-- Copy a register, unless it is a copy onto itself. -/
def move (rd rs : HostReg) : Lowering Unit := unless rd = rs do emit (.mov rd rs)

/-- Copy a float register, unless it is a copy onto itself. -/
def moveFloat (fd fs : FloatReg) : Lowering Unit := unless fd = fs do emit (.floatMov fd fs)

/-! ### Labels -/

/-- A label for a forward jump. -/
def newLabel : Lowering Label :=
  modifyGet fun b =>
    let (label, code) := b.code.newLabel
    (label, { b with code := code })

/-- Jump forward to a label if the condition holds. -/
def jumpForward (condition : Condition) (label : Label) : Lowering Unit :=
  modify fun b =>
    { b with code := b.code.emitReference (Operation.jumpIf condition 0).encode label }

/-- The label is here. -/
def placeLabel (label : Label) : Lowering Unit :=
  modify fun b => { b with code := b.code.place label }

/-! ### Registers -/

/-- Take the result of an action on the scalar cache. -/
def useScalars (wanted : GuestReg) (action : ScalarCache → Option (Placed HostReg ScalarCache)) :
    Lowering HostReg := do
  match action (← get).scalars with
  | none => throw (.registersExhausted (.scalar wanted))
  | some placed =>
    modify fun b => { b with scalars := placed.cache }
    emitAll placed.code
    return placed.reg

/-- A host register with the value of a scalar register. -/
def bind (r : GuestReg) : Lowering HostReg := useScalars r (·.bind? r)

/-- A host register that the caller writes, and that becomes the scalar register. -/
def bindForWrite (r : GuestReg) : Lowering HostReg := useScalars r (·.bindForWrite? r)

/-- The host register of a scalar register was changed. -/
def markDirty (r : GuestReg) : Lowering Unit :=
  modify fun b => { b with scalars := b.scalars.markDirty r }

/-- Take the result of an action on the element cache. -/
def useElements {R : Type} (wanted : Wanted)
    (action : ElementCache → Option (Placed R ElementCache)) : Lowering R := do
  match action (← get).elements with
  | none => throw (.registersExhausted wanted)
  | some placed =>
    modify fun b => { b with elements := placed.cache }
    emitAll placed.code
    return placed.reg

/-- A float register with the value of an element. -/
def readElement (e : Element) : Lowering FloatReg :=
  useElements (.element e) (·.bindElement? e true)

/-- A float register that the caller writes, and that becomes the element. -/
def writeElement (e : Element) : Lowering FloatReg :=
  useElements (.element e) (·.bindElement? e false)

/-- A vector register number, of which only seven bits count. -/
def quadIndex (reg : UInt8) : Fin 128 := Fin.ofNat 128 reg.toNat

/-- A quad register with the values of a vector register. -/
def readQuad (reg : UInt8) : Lowering QuadReg :=
  useElements (.quad (quadIndex reg)) (·.bindQuad? (quadIndex reg) true)

/-- A quad register that the caller writes, and that becomes the vector register. -/
def writeQuad (reg : UInt8) : Lowering QuadReg :=
  useElements (.quad (quadIndex reg)) (·.bindQuad? (quadIndex reg) false)

/-- A float register for the current instruction. -/
def temporary : Lowering FloatReg := useElements .floatTemporary (·.temporary?)

/-- Unlock all bindings and free all temporaries. -/
def releaseLocks : Lowering Unit :=
  modify fun b =>
    { b with scalars := b.scalars.releaseLocks, elements := b.elements.releaseLocks }

/-! ### Writing back -/

/-- Change what is known about pending modifiers. -/
def updateModifiers (f : ModifierTracker → ModifierTracker) : Lowering Unit :=
  modify fun b => { b with modifiers := f b.modifiers }

/-- Write known modifiers to their control registers. -/
def flushModifiers : Lowering Unit := do
  for (slot, modifier) in (← get).modifiers.dirtySlots do
    emit (.setControl (UInt8.ofNat slot.control.val) modifier)
  updateModifiers (·.markFlushed)

/-- **Make the guest state current.**  Bindings are kept. -/
def flushAll : Lowering Unit := do
  let (saved, scalars) := (← get).scalars.flushAll
  let (savedElements, elements) := (← get).elements.flushAll
  modify fun b => { b with scalars := scalars, elements := elements }
  emitAll (saved ++ savedElements)
  flushModifiers

/-- Drop all bindings. -/
def discardAll : Lowering Unit :=
  modify fun b =>
    { b with scalars := b.scalars.discardAll, elements := b.elements.discardAll }

/-! ### Progress and exits -/

/-- Count one more instruction. -/
def charge : Lowering Unit := modify fun b => { b with progress := b.progress.charge }

/-- Go on at an address. -/
def moveTo (pc : UInt32) : Lowering Unit :=
  modify fun b => { b with progress := { b.progress with pc := pc } }

/-- Charge cycles to the guest. -/
def subtractCycles (amount : UInt32) : Lowering Unit := do
  if (← read).options.downcountInRegister then
    emit (.aluImm .sub HostReg.downcount HostReg.downcount amount)
  else emit (.subDowncount amount)

/-- Charge the cycles of the instructions so far. -/
def subtractProgress : Lowering Unit := do subtractCycles (← get).progress.count

/-- **Charge cycles and leave through an exit that can be linked.** -/
def exitTo (target amount : UInt32) : Lowering Unit := do
  subtractCycles amount
  modify fun b =>
    { b with
      exits := b.exits.push { target := target, stub := b.code.offset }
      code := b.code.emit (Operation.exitDispatch target).encode }

/-- Charge the cycles so far and leave through an exit that can be linked. -/
def exitHere (target : UInt32) : Lowering Unit := do exitTo target (← get).progress.count

end Lowering

end Dynarec
