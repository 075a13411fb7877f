import Dynarec.Host.CodeSpace

/-!
# Running host code

Host code runs against the machine of the guest until an exit operation fires.  Host registers live
for one run only: a block writes everything back before it exits, so that nothing but the downcount
register survives a jump from one linked block to the next.

`Operation.perform` is the effect of one operation; `Host.run` runs code from an offset.
-/

namespace Dynarec

/-- Why native code returned.  The program counter is the next guest instruction to run. -/
inductive ExitReason where
  /-- Look up the block at the program counter. -/
  | dispatch
  /-- Interpret the instruction at the program counter, with its delay slot. -/
  | interpret
  | syscall (code : UInt32)
  | breakpoint
  /-- A block for default modifiers was entered with a modifier pending. -/
  | modifierMismatch (block : UInt32)
  /-- The interpreter refused an instruction. -/
  | fault (trap : Trap)
  /-- A host word that is no operation. -/
  | badCode (offset : Nat)
deriving DecidableEq, Repr, Inhabited

/-- **The registers of the host.** -/
structure HostState where
  regs : Vector UInt32 16
  floats : Vector Single 32
  quads : Vector (Vector Single 4) 8
  /-- The last compared words. -/
  flags : UInt32 × UInt32
  savedFlags : UInt32 × UInt32

namespace HostState

/-- All registers zero. -/
def start : HostState where
  regs := Vector.replicate 16 0
  floats := Vector.replicate 32 Single.zero
  quads := Vector.replicate 8 (Vector.replicate 4 Single.zero)
  flags := (0, 0)
  savedFlags := (0, 0)

/-- An integer register. -/
def get (h : HostState) (r : HostReg) : UInt32 := h.regs[r]

/-- Write an integer register. -/
def set (h : HostState) (r : HostReg) (value : UInt32) : HostState :=
  { h with regs := h.regs.set r value }

/-- A float register. -/
def float (h : HostState) (r : FloatReg) : Single := h.floats[r]

/-- Write a float register. -/
def setFloat (h : HostState) (r : FloatReg) (value : Single) : HostState :=
  { h with floats := h.floats.set r value }

/-- A quad register. -/
def quad (h : HostState) (r : QuadReg) : Vector Single 4 := h.quads[r]

/-- Write a quad register. -/
def setQuad (h : HostState) (r : QuadReg) (value : Vector Single 4) : HostState :=
  { h with quads := h.quads.set r value }

/-- A condition on the last compared words. -/
def holds (h : HostState) (c : Condition) : Bool := c.eval h.flags.1 h.flags.2

/-- The address at a register and an offset. -/
def address (h : HostState) (base : HostReg) (offset : Int32) : UInt32 :=
  h.get base + offset.toUInt32

end HostState

/-- What wants attention before another block runs. -/
def Machine.eventPending (m : Machine) : Bool :=
  m.core.exitRequested || m.memory.hasChangedCode || !m.core.isRunning

/-- What happens after an operation. -/
inductive Outcome where
  /-- Go on with the next word. -/
  | next (h : HostState) (m : Machine)
  /-- Go on at an offset. -/
  | jump (target : Nat) (h : HostState) (m : Machine)
  | exit (reason : ExitReason) (h : HostState) (m : Machine)
  | broken (violation : Violation)

namespace Outcome

/-- Go on with a changed core. -/
def withCore (h : HostState) (m : Machine) (f : Core → Core) : Outcome :=
  let ⟨core, memory⟩ := m
  next h ⟨f core, memory⟩

/-- Leave at a program counter. -/
def exitAt (reason : ExitReason) (pc : UInt32) (h : HostState) (m : Machine) : Outcome :=
  let ⟨core, memory⟩ := m
  exit reason h ⟨{ core with pc := pc }, memory⟩

/-- Go on with changed memory. -/
def withMemory (h : HostState) (m : Machine) (f : Memory → Except Violation Memory) : Outcome :=
  let ⟨core, memory⟩ := m
  match f memory with
  | .ok memory => next h ⟨core, memory⟩
  | .error v => broken v

end Outcome

/-- Store singles at consecutive words. -/
def storeSingles (memory : Memory) (address : UInt32) : List Single → Except Violation Memory
  | [] => .ok memory
  | x :: rest => do
    let memory ← memory.writeSingle address x
    storeSingles memory (address + 4) rest

/-- Write singles to elements. -/
def setElements (c : Core) : List Element → List Single → Core
  | e :: es, x :: xs => setElements (c.setElement e x) es xs
  | _, _ => c

/-- Four lanes, each from its number. -/
def lanesOf (f : Nat → Single) : Vector Single 4 := Vector.ofFn fun lane => f lane.val

/-- A control register by the low bits of a byte. -/
def controlIndex (b : UInt8) : Fin 16 := Fin.ofNat 16 b.toNat

/-- An element by the low bits of a byte. -/
def elementIndex (b : UInt8) : Element := Fin.ofNat 128 b.toNat

open Outcome in
/-- **The effect of an operation.** -/
def Operation.perform (op : Operation) (h : HostState) (m : Machine) : Outcome :=
  match op with
  | .nop => next h m
  | .movImm rd imm => next (h.set rd imm) m
  | .mov rd rs => next (h.set rd (h.get rs)) m
  | .loadGuest rd r => next (h.set rd (m.core.reg r)) m
  | .storeGuest rs r => withCore h m (·.setReg r (h.get rs))
  | .alu op rd rs rt => next (h.set rd (op.apply (h.get rs) (h.get rt))) m
  | .aluImm op rd rs imm => next (h.set rd (op.apply (h.get rs) imm)) m
  | .unary op rd rs => next (h.set rd (op.apply (h.get rs))) m
  | .multiply kind rs rt hi lo =>
    let (high, low) := kind.apply (h.get rs) (h.get rt) (h.get hi) (h.get lo)
    next ((h.set hi high).set lo low) m
  | .compare rs rt => next { h with flags := (h.get rs, h.get rt) } m
  | .compareImm rs imm => next { h with flags := (h.get rs, imm) } m
  | .setIf c rd => next (h.set rd (flagWord (h.holds c))) m
  | .movIf c rd rs => next (if h.holds c then h.set rd (h.get rs) else h) m
  | .load w rd base offset => next (h.set rd (w.load m.memory (h.address base offset))) m
  | .store w rs base offset =>
    withMemory h m fun memory => w.store memory (h.address base offset) (h.get rs)
  | .saveFlags => next { h with savedFlags := h.flags } m
  | .restoreFlags => next { h with flags := h.savedFlags } m
  | .jump target => .jump target.toNat h m
  | .jumpIf c target => if h.holds c then .jump target.toNat h m else next h m
  | .subDowncount amount =>
    withCore h m fun c => { c with downcount := c.downcount - amount.toInt32 }
  | .checkEntry inRegister pc =>
    let downcount :=
      if inRegister then (h.get HostReg.downcount).toInt32 else m.core.downcount
    if downcount ≤ 0 || m.eventPending then exitAt .dispatch pc h m else next h m
  | .setPc pc => withCore h m fun c => { c with pc := pc }
  | .exitDispatch pc => exitAt .dispatch pc h m
  | .exitDispatchReg rs => exitAt .dispatch (h.get rs) h m
  | .exitInterpret pc => exitAt .interpret pc h m
  | .exitSyscall code pc => exitAt (.syscall code) pc h m
  | .exitBreak pc =>
    let ⟨core, memory⟩ := m
    exit .breakpoint h ⟨{ core with runState := .stopped pc, pc := pc + 4 }, memory⟩
  | .interpret word =>
    let pc := m.core.pc
    match Machine.execute ⟨word⟩ pc m with
    | .ok .normal m => next { h with flags := (0, 0) } m
    | .ok _ m => exit (.fault (.unimplemented word pc)) h m
    | .error (.trap t) m => exit (.fault t) h m
    | .error (.violation v) _ => broken v
  | .guardModifiers pc =>
    if m.core.hasDefaultModifiers then next h m else exitAt (.modifierMismatch pc) pc h m
  | .loadControl rd index => next (h.set rd (m.core.control (controlIndex index))) m
  | .storeControl rs index => withCore h m (·.setControl (controlIndex index) (h.get rs))
  | .setControl index value => withCore h m (·.setControl (controlIndex index) value)
  | .loadElement fd e => next (h.setFloat fd (m.core.element (elementIndex e))) m
  | .storeElement fs e => withCore h m (·.setElement (elementIndex e) (h.float fs))
  | .float op fd fs ft => next (h.setFloat fd (op.apply (h.float fs) (h.float ft))) m
  | .floatUnary op fd fs => next (h.setFloat fd (op.apply (h.float fs))) m
  | .floatImm fd bits => next (h.setFloat fd ⟨bits⟩) m
  | .floatMov fd fs => next (h.setFloat fd (h.float fs)) m
  | .floatLoad fd base offset =>
    next (h.setFloat fd (m.memory.readSingle (h.address base offset))) m
  | .floatStore fs base offset =>
    withMemory h m fun memory => memory.writeSingle (h.address base offset) (h.float fs)
  | .floatCompare c lane rd fs ft =>
    let mask := (1 : UInt32) <<< UInt32.ofNat (lane.val % 4)
    let old := h.get rd
    let hit := compareLane (UInt32.ofNat c.val) (h.float fs) (h.float ft)
    next (h.set rd (if hit then old ||| mask else old &&& ~~~mask)) m
  | .mergeConditions rd rs lanes =>
    next (h.set rd (mergeConditionBits (h.get rd) (h.get rs) lanes)) m
  | .floatToInt rd fs => next (h.set rd (h.float fs).bits) m
  | .intToFloat fd rs => next (h.setFloat fd ⟨h.get rs⟩) m
  | .loadQuad qd r =>
    next (h.setQuad qd (lanesOf fun lane => m.core.element (VectorSize.quad.element r lane))) m
  | .storeQuad qs r =>
    withCore h m fun c => setElements c (VectorSize.quad.elements r) (h.quad qs).toList
  | .quad op qd qs qt => next (h.setQuad qd (Vector.zipWith op.apply (h.quad qs) (h.quad qt))) m
  | .quadUnary op qd qs => next (h.setQuad qd ((h.quad qs).map op.apply)) m
  | .quadImm qd bits => next (h.setQuad qd (Vector.replicate 4 ⟨bits⟩)) m
  | .quadLoad qd base offset =>
    let address := h.address base offset
    next (h.setQuad qd (lanesOf fun lane =>
      m.memory.readSingle (address + UInt32.ofNat (lane * 4)))) m
  | .quadStore qs base offset =>
    withMemory h m fun memory => storeSingles memory (h.address base offset) (h.quad qs).toList

namespace Host

/-- The outcome of a run: why it ended, and the host and the guest at its end. -/
abbrev RunResult := Except Violation (ExitReason × HostState × Machine)

/-- Run code from an offset, for at most `fuel` operations. -/
def runFrom (code : Array HostWord) : (fuel offset : Nat) → HostState → Machine → RunResult
  | 0, _, _, _ => .error .outOfSteps
  | fuel + 1, offset, h, m =>
    match (code[offset]?).bind Operation.decode? with
    | none => .ok (.badCode offset, h, m)
    | some op =>
      match op.perform h m with
      | .next h m => runFrom code fuel (offset + 1) h m
      | .jump target h m => runFrom code fuel target h m
      | .exit reason h m => .ok (reason, h, m)
      | .broken v => .error v

/-- **Run code from `entry` until an exit fires.**  With `inRegister` the downcount is moved to its
host register before the run and back after it. -/
def run (inRegister : Bool) (code : Array HostWord) (fuel entry : Nat) (m : Machine) :
    Except Violation (ExitReason × Machine) := do
  let start :=
    if inRegister then HostState.start.set HostReg.downcount m.core.downcount.toUInt32
    else HostState.start
  let (reason, h, m) ← runFrom code fuel entry start m
  if inRegister then
    let ⟨core, memory⟩ := m
    return (reason, ⟨{ core with downcount := (h.get HostReg.downcount).toInt32 }, memory⟩)
  else return (reason, m)

end Host

end Dynarec
