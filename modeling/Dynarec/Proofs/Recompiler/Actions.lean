import Dynarec.Recompiler.Snapshot
import Mathlib.Logic.Relation

/-!
# What can happen to a session

Between two runs the outside may make a block, drop blocks, load what was learned, store to memory
and change the core.  `Session.Becomes s s'` says that `s'` comes from `s` by any number of such
actions and of runs.
-/

namespace Dynarec

/-- A sequence of two actions succeeds when both do. -/
theorem ok_of_bind {ε α β : Type} {x : Except ε α} {f : α → Except ε β} {y : β}
    (hok : (x >>= f) = .ok y) : ∃ a, x = .ok a ∧ f a = .ok y := by
  cases x with
  | error e => cases hok
  | ok a => exact ⟨a, rfl, hok⟩

theorem ok_of_map {ε α β : Type} {x : Except ε α} {f : α → β} {y : β}
    (hok : x.map f = .ok y) : ∃ a, x = .ok a ∧ f a = y := by
  cases x with
  | error e => cases hok
  | ok a =>
    cases hok
    exact ⟨a, rfl, rfl⟩

theorem ok_of_toOption {ε α : Type} {x : Except ε α} {y : α} (h : x.toOption = some y) : x = .ok y := by
  cases x with
  | error e => cases h
  | ok a => exact congrArg Except.ok (Option.some.inj h)

namespace Session

/-- **What the outside does with a session.**  A store of an element is the store of its word. -/
inductive Action where
  | run
  /-- Make the block at an address. -/
  | lower (address : UInt32) (allowed : Bool)
  | invalidate (start length : UInt32)
  | clear
  | load (text : String)
  | store (width : Width) (address value : UInt32)
  | storeWords (address : UInt32) (words : List UInt32)
  /-- The state of the guest belongs to the outside between two runs. -/
  | setCore (core : Core)

/-- The session after a store. -/
def write (s : Session) (f : Memory → Except Violation Memory) : Except Violation Session :=
  (f s.machine.memory).map fun memory => ⟨s.recompiler, ⟨s.machine.core, memory⟩⟩

/-- **The session after an action**, whatever the action answers. -/
def act (s : Session) : Action → Except Violation Session
  | .run => s.run.map Prod.snd
  | .lower address allowed => (s.lower address allowed).map Prod.snd
  | .invalidate start length =>
    (s.recompiler.invalidate start length).map fun p => ⟨p.2, s.machine⟩
  | .clear => .ok s.clear
  | .load text => .ok (s.load text).2
  | .store width address value => s.write fun memory => width.store memory address value
  | .storeWords address words => s.write fun memory => memory.writeWords address words
  | .setCore core => .ok ⟨s.recompiler, ⟨core, s.machine.memory⟩⟩

/-- **Any number of actions.** -/
abbrev Becomes : Session → Session → Prop :=
  Relation.ReflTransGen fun s s' => ∃ action, s.act action = .ok s'

end Session

end Dynarec
