import Dynarec.Host.Executor
import Dynarec.Recompiler.Basic

/-!
# Running guest code through the recompiler

A session is a recompiler together with the machine that it drives.  `Session.lower` finds or
makes the block at an address.  `Session.run` takes turns of resolving the program counter, running
native code, and doing what native code returned for, until the downcount is used up, a request to
the system retires, or the core stops.
-/

namespace Dynarec

/-- **A recompiler and the machine that it drives.** -/
structure Session where
  recompiler : Recompiler
  machine : Machine

/-- What an action on a session yields: an answer or a failure, and the session after it. -/
abbrev Session.Answer (α : Type) := Except Failure α × Session

/-- Why a run handed control back. -/
inductive RunExit where
  /-- The downcount is used up. -/
  | budget
  /-- A request to the system retired; the program counter is past it. -/
  | syscall (code : UInt32)
  /-- The core does not run, or the outside asked for control. -/
  | stopped
deriving DecidableEq, Repr, Inhabited

/-- What follows one turn of the dispatcher. -/
inductive Turn where
  | again
  | done (exit : RunExit)
  | failed (failure : Failure)
deriving DecidableEq, Repr, Inhabited

namespace Session

/-- Drop every block, all code, and all marks of code in memory. -/
def clear (s : Session) : Session :=
  let ⟨r, ⟨core, memory⟩⟩ := s
  let r := { r with cache := r.cache.clear }
  ⟨r.count fun stats => { stats with cacheClears := stats.cacheClears + 1 },
    ⟨core, memory.clearCodeMarks⟩⟩

/-- Append the code of the block at an address.  If its code does not fit, everything is
dropped and lowering is tried once more. -/
def append (s : Session) (address : UInt32) (entry : EntryAssumption) :
    Except Failure Block × Session :=
  let ⟨r, machine⟩ := s
  match r.append machine.memory address entry with
  | (.error (.codeSpaceExhausted _), r) =>
    let ⟨r, machine⟩ := (Session.mk r machine).clear
    let (result, r) := r.append machine.memory address entry
    (result, ⟨r, machine⟩)
  | (result, r) => (result, ⟨r, machine⟩)

/-- Store a block that was appended, and mark its bytes as code. -/
def insert (s : Session) (block : Block) : Except Violation (Nat × Session) := do
  let ⟨r, ⟨core, memory⟩⟩ := s
  let (id, r) ← r.insert block
  return (id, ⟨r, ⟨core, memory.markCode block.start block.stop⟩⟩)

/-- Make the block at an address, which has none. -/
def lowerNew (s : Session) (address : UInt32) (allowed : Bool) : Except Violation (Answer Nat) := do
  let full := s.recompiler.cache.stored ≥ s.recompiler.options.maxBlocks
  let s := if full then s.clear else s
  let entry := s.recompiler.entryAssumption address allowed
  let ⟨r, machine⟩ := s
  let r ← r.split address
  match (Session.mk r machine).append address entry with
  | (.error e, s) => return (.error e, s)
  | (.ok block, s) =>
    let (id, s) ← s.insert block
    return (.ok id, s)

/-- **The number of the block at an address**, which is made if there is none.  It assumes that no
modifier is pending if the caller allows it and the address is not distrusted. -/
def lower (s : Session) (address : UInt32) (allowed : Bool) : Except Violation (Answer Nat) :=
  match s.recompiler.cache.find? address with
  | some id => .ok (.ok id, s)
  | none => s.lowerNew address allowed

/-! ### Running -/

/-- Drop the blocks whose code was overwritten. -/
def dropChanged (s : Session) : Except Violation Session := do
  let ⟨r, ⟨core, memory⟩⟩ := s
  let (changed, memory) := memory.takeChangedCode
  return ⟨← r.invalidateAll changed, ⟨core, memory⟩⟩

/-- Interpret one instruction with its delay slot. -/
def interpretOne (s : Session) : Except Violation (Turn × Session) :=
  let ⟨r, machine⟩ := s
  let r := r.count fun stats => { stats with interpreted := stats.interpreted + 1 }
  match Machine.runOne machine with
  | .ok .normal m => .ok (.again, ⟨r, m⟩)
  | .ok (.syscall code) m => .ok (.done (.syscall code), ⟨r, m⟩)
  | .ok .breakpoint m => .ok (.done .stopped, ⟨r, m⟩)
  | .error (.trap t) m => .ok (.done .stopped, ⟨r, m.fault t⟩)
  | .error (.violation v) _ => .error v

/-- Where native code at an address is entered; a block is made if there is none. -/
def entry (s : Session) (pc : UInt32) : Except Violation (Answer Nat) := do
  match s.recompiler.cache.lookup? pc with
  | some block =>
    let ⟨r, machine⟩ := s
    let r := r.count fun stats => { stats with cacheHits := stats.cacheHits + 1 }
    return (.ok block.normalEntry, ⟨r, machine⟩)
  | none =>
    let ⟨r, machine⟩ := s
    let r := r.count fun stats => { stats with cacheMisses := stats.cacheMisses + 1 }
    let allowed := machine.core.hasDefaultModifiers
    match ← (Session.mk r machine).lower pc allowed with
    | (.error e, s) => return (.error e, s)
    | (.ok id, s) =>
      match s.recompiler.cache.block? id with
      | some block => return (.ok block.normalEntry, s)
      | none => return (.error (.refused pc .lostBlock), s)

/-- Do what native code returned for. -/
def serve (s : Session) (reason : ExitReason) : Except Violation (Turn × Session) := do
  match reason with
  | .dispatch => return (.again, s)
  | .interpret => s.interpretOne
  | .syscall code => return (.done (.syscall code), s)
  | .breakpoint => return (.done .stopped, s)
  | .modifierMismatch block =>
    let ⟨r, machine⟩ := s
    let r := r.count fun stats =>
      { stats with modifierMismatches := stats.modifierMismatches + 1 }
    let (_, r) ← r.invalidate block 4
    return (.again, ⟨r.distrust block, machine⟩)
  | .fault t =>
    let ⟨r, machine⟩ := s
    return (.done .stopped, ⟨r, machine.fault t⟩)
  | .badCode offset => return (.failed (.badHostCode offset), s)

/-- Number of host operations that native code can take: every block that it passes through lowers
the downcount, and the jumps inside a block lead forward. -/
def nativeFuel (s : Session) : Nat :=
  (s.machine.core.downcount.toInt.toNat + 2) * (s.recompiler.cache.code.offset + 2)

/-- Run native code, and do what it returned for. -/
def runNative (s : Session) (entry : Nat) : Except Violation (Turn × Session) := do
  let fuel := s.nativeFuel
  let ⟨r, machine⟩ := s
  let (reason, machine) ←
    Host.run r.options.downcountInRegister r.cache.code.words fuel entry machine
  (Session.mk r machine).serve reason

/-- One turn of the dispatcher: find or make the block at the program counter and run it.  What
cannot be compiled is interpreted. -/
def turn (s : Session) : Except Violation (Turn × Session) := do
  let pc := s.machine.core.pc
  match ← s.entry pc with
  | (.ok entry, s) => s.runNative entry
  | (.error e, s) => if e.isLocal then s.interpretOne else return (.failed e, s)

/-- Take turns until the run ends. -/
def turns : (fuel : Nat) → Session → Except Violation (Answer RunExit)
  | 0, _ => .error .outOfSteps
  | fuel + 1, s => do
    let s ← s.dropChanged
    let core := s.machine.core
    if !core.isRunning || core.exitRequested then return (.ok .stopped, s)
    else if core.downcount ≤ 0 then return (.ok .budget, s)
    else
      match ← s.turn with
      | (.again, s) => turns fuel s
      | (.done exit, s) => return (.ok exit, s)
      | (.failed e, s) => return (.error e, s)

/-- Number of turns that a run can take: every turn lowers the downcount, except one whose guard
fails, and after that the address is distrusted. -/
def turnFuel (s : Session) : Nat := 2 * s.machine.core.downcount.toInt.toNat + 2

/-- **Run guest code** until the downcount is used up, a request to the system retires, or the core
stops. -/
def run (s : Session) : Except Violation (Answer RunExit) := turns s.turnFuel s

end Session

end Dynarec
