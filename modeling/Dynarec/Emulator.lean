import Dynarec.Recompiler.Session

/-!
# The emulator

An emulator drives the core with the interpreter or with the recompiler, in slices of cycles.
Between slices it answers requests to the system through a handler.  The handler sees the machine
between two instructions, with the program counter past the request.
-/

namespace Dynarec

/-- What runs guest code. -/
inductive Engine where
  | interpreter
  | recompiler (r : Recompiler)

/-- **An emulator.** -/
structure Emulator where
  engine : Engine
  machine : Machine
  /-- Guest cycles retired so far. -/
  cycles : Nat
  /-- Most cycles in a slice, one at least. -/
  sliceCycles : Int32

/-- Why a run of the emulator ended. -/
inductive StopReason where
  /-- The cycles asked for have retired. -/
  | cycleTarget
  | halted
  | breakpoint (pc : UInt32)
  | fault (pc word : UInt32)
  | exitRequested
deriving DecidableEq, Repr, Inhabited

/-- What answers a request to the system: it changes a state of its own and the machine. -/
abbrev SyscallHandler (H : Type) := UInt32 → H → Machine → H × Machine

/-- Ignores every request. -/
def ignoreSyscalls : SyscallHandler Unit := fun _ h m => (h, m)

namespace Engine

/-- The engine that is asked for; only the recompiler can fail to be made. -/
def create (recompile : Bool) (options : Options) : Except Failure Engine :=
  if recompile then (Recompiler.create options).map recompiler else .ok interpreter

/-- The recompiler, if that is what runs. -/
def recompiler? : Engine → Option Recompiler
  | interpreter => none
  | recompiler r => some r

end Engine

/-! ### Slices of the interpreter -/

namespace Machine

/-- Interpret until the downcount is used up or something needs attention. -/
def interpretSteps : (fuel : Nat) → Machine → Except Violation (RunExit × Machine)
  | 0, m => .ok (.budget, m)
  | fuel + 1, m =>
    if m.core.downcount ≤ 0 then .ok (.budget, m)
    else if !m.core.isRunning || m.core.exitRequested then .ok (.stopped, m)
    else
      match runOne m with
      | .ok .normal m => interpretSteps fuel m
      | .ok (.syscall code) m => .ok (.syscall code, m)
      | .ok .breakpoint m => .ok (.stopped, m)
      | .error (.trap t) m => .ok (.stopped, m.fault t)
      | .error (.violation v) _ => .error v

/-- Interpret one slice.  Every instruction takes a cycle. -/
def interpretSlice (m : Machine) : Except Violation (RunExit × Machine) :=
  interpretSteps m.core.downcount.toInt.toNat m

/-- Set the cycles of the next slice. -/
def setDowncount (m : Machine) (slice : Int32) : Machine :=
  let ⟨core, memory⟩ := m
  ⟨{ core with downcount := slice }, memory⟩

/-- Forget that the outside asked for control. -/
def clearExitRequest (m : Machine) : Machine :=
  let ⟨core, memory⟩ := m
  ⟨{ core with exitRequested := false }, memory⟩

end Machine

namespace Emulator

/-- An emulator with empty memory, at the start of it. -/
def create (engine : Engine) (base size : UInt32) (sliceCycles : Int32) : Emulator where
  engine := engine
  machine := ⟨Core.start base, Memory.create base size⟩
  cycles := 0
  sliceCycles := if sliceCycles < 1 then 1 else sliceCycles

/-- Copy an image into memory and point the core at its entry. -/
def loadImage (e : Emulator) (address : UInt32) (image : List UInt8) (entry : UInt32) :
    Except Violation (Except Memory.ImageMisfit Emulator) := do
  let ⟨engine, ⟨core, memory⟩, cycles, slice⟩ := e
  match ← memory.loadImage address image with
  | .error misfit => return .error misfit
  | .ok memory => return .ok ⟨engine, ⟨{ core with pc := entry }, memory⟩, cycles, slice⟩

/-- Tell the emulator that memory changed behind its back. -/
def invalidate (e : Emulator) (start length : UInt32) : Except Violation Emulator := do
  match e.engine with
  | .interpreter => return e
  | .recompiler r =>
    let (_, r) ← r.invalidate start length
    return { e with engine := .recompiler r }

/-- Why the core is stopped, if it is. -/
def stopReason? : RunState → Option StopReason
  | .running => none
  | .halted => some .halted
  | .stopped pc => some (.breakpoint pc)
  | .faulted pc word => some (.fault pc word)

/-- The slice that is run next, when fewer than `target` cycles have retired. -/
def nextSlice (e : Emulator) (target : Nat) : Int32 :=
  Int32.ofNat (Nat.min (target - e.cycles) e.sliceCycles.toInt.toNat)

/-- Run one slice. -/
def runEngine (engine : Engine) (m : Machine) :
    Except Violation (Except Failure RunExit × Engine × Machine) :=
  match engine with
  | .interpreter => do
    let (exit, m) ← m.interpretSlice
    return (.ok exit, .interpreter, m)
  | .recompiler r => do
    let (result, ⟨r, m⟩) ← (Session.mk r m).run
    return (result, .recompiler r, m)

/-- The cycles that a slice used.  The downcount may be below zero by the tail of a block; the
difference has to fit a signed word. -/
def sliceUsed (slice downcount : Int32) : Except Violation Nat :=
  let used := slice.toInt - downcount.toInt
  if used < 2 ^ 31 then .ok used.toNat else .error .sliceCycles

/-- What running the emulator yields: why it stopped or failed, the emulator, and the state of the
handler. -/
abbrev Answer (H : Type) := Except Failure StopReason × Emulator × H

/-- Run slices until there is a reason to stop.  A slice that fails is not charged. -/
def slices {H : Type} (handler : SyscallHandler H) (target : Nat) :
    (fuel : Nat) → Emulator → H → Except Violation (Answer H)
  | 0, _, _ => .error .outOfSteps
  | fuel + 1, e, h => do
    match stopReason? e.machine.core.runState with
    | some reason => return (.ok reason, e, h)
    | none =>
      if e.machine.core.exitRequested then
        let ⟨engine, machine, cycles, size⟩ := e
        return (.ok .exitRequested, ⟨engine, machine.clearExitRequest, cycles, size⟩, h)
      else if e.cycles ≥ target then return (.ok .cycleTarget, e, h)
      else
        let slice := e.nextSlice target
        let ⟨engine, machine, cycles, size⟩ := e
        let (result, engine, machine) ← runEngine engine (machine.setDowncount slice)
        match result with
        | .error failure => return (.error failure, ⟨engine, machine, cycles, size⟩, h)
        | .ok exit =>
          let used ← sliceUsed slice machine.core.downcount
          match exit with
          | .syscall code =>
            let (h, machine) := handler code h machine
            slices handler target fuel ⟨engine, machine, cycles + used, size⟩ h
          | _ => slices handler target fuel ⟨engine, machine, cycles + used, size⟩ h

/-- **Run until `target` cycles have retired or the core stops.**  Every slice but the last uses a
cycle. -/
def runUntil {H : Type} (e : Emulator) (handler : SyscallHandler H) (target : Nat) (h : H) :
    Except Violation (Answer H) :=
  slices handler target (target - e.cycles + 2) e h

end Emulator

end Dynarec
