/-!
# Slots for bindings

A register cache has a fixed set of slots, one per host register.  A slot holds at most one guest
value; it is dirty when the guest state does not have the value yet, and locked while the current
instruction relies on it.  A new binding takes a free slot, else the slot that was used least
recently, clean slots first; locked slots are never taken.
-/

namespace Dynarec

/-- One slot. -/
structure Slot (G : Type) where
  guest : Option G := none
  dirty : Bool := false
  /-- Time of the last use. -/
  lastUsed : Nat := 0
  locked : Bool := false
deriving DecidableEq, Repr, Inhabited

/-- **`n` slots and the clock that dates their use.** -/
structure SlotArena (n : Nat) (G : Type) where
  slots : Vector (Slot G) n
  clock : Nat

namespace SlotArena

variable {n : Nat} {G : Type}

/-- All slots free. -/
def empty : SlotArena n G := ⟨Vector.replicate n {}, 0⟩

/-- A slot. -/
def slot (a : SlotArena n G) (i : Fin n) : Slot G := a.slots[i]

/-- Change one slot. -/
def update (a : SlotArena n G) (i : Fin n) (f : Slot G → Slot G) : SlotArena n G :=
  { a with slots := a.slots.set i (f a.slots[i]) }

/-- Change every slot. -/
def updateAll (a : SlotArena n G) (f : Slot G → Slot G) : SlotArena n G :=
  { a with slots := a.slots.map f }

/-- The slot that holds a guest value. -/
def find? [BEq G] (a : SlotArena n G) (g : G) : Option (Fin n) :=
  (List.finRange n).find? fun i => (a.slot i).guest == some g

/-- The slot is dirty. -/
def isDirty (a : SlotArena n G) (i : Fin n) : Bool := (a.slot i).dirty

/-- Say whether the slot is dirty. -/
def setDirty (a : SlotArena n G) (i : Fin n) (dirty : Bool) : SlotArena n G :=
  a.update i fun s => { s with dirty := dirty }

/-- Date the use of a slot. -/
def touch (a : SlotArena n G) (i : Fin n) : SlotArena n G :=
  { a with clock := a.clock + 1 }.update i fun s => { s with lastUsed := a.clock + 1 }

/-- Keep a slot from being taken. -/
def lock (a : SlotArena n G) (i : Fin n) : SlotArena n G :=
  a.update i fun s => { s with locked := true }

/-- Unlock all slots. -/
def releaseLocks (a : SlotArena n G) : SlotArena n G := a.updateAll fun s => { s with locked := false }

/-- The earlier used of two slots, the first if they are equally old. -/
def older (a : SlotArena n G) (best : Option (Fin n)) (i : Fin n) : Option (Fin n) :=
  match best with
  | none => some i
  | some j => if (a.slot i).lastUsed < (a.slot j).lastUsed then some i else some j

/-- The least recently used of the unlocked slots that are dirty, or of those that are not. -/
def leastRecent? (a : SlotArena n G) (dirty : Bool) : Option (Fin n) :=
  ((List.finRange n).filter fun i => !(a.slot i).locked && (a.slot i).dirty == dirty).foldl
    a.older none

/-- **The slot for a new binding.** -/
def select? (a : SlotArena n G) : Option (Fin n) :=
  match (List.finRange n).find? fun i => (a.slot i).guest.isNone && !(a.slot i).locked with
  | some i => some i
  | none => (a.leastRecent? false).or (a.leastRecent? true)

/-- Bind a guest value to a slot, clean and locked. -/
def assign (a : SlotArena n G) (i : Fin n) (g : G) : SlotArena n G :=
  (a.update i fun s => { s with guest := some g, dirty := false, locked := true }).touch i

/-- Free a slot. -/
def clear (a : SlotArena n G) (i : Fin n) : SlotArena n G :=
  a.update i fun s => { s with guest := none, dirty := false }

/-- What a slot holds, and whether it is dirty. -/
def held? (a : SlotArena n G) (i : Fin n) : Option (G × Bool) :=
  (a.slot i).guest.map fun g => (g, (a.slot i).dirty)

/-- Free and unlock all slots. -/
def clearAll (a : SlotArena n G) : SlotArena n G :=
  a.updateAll fun s => { s with guest := none, dirty := false, locked := false }

/-- Slots with dirty values, and the values. -/
def dirtyBindings (a : SlotArena n G) : List (Fin n × G) :=
  (List.finRange n).filterMap fun i =>
    match a.held? i with
    | some (g, true) => some (i, g)
    | _ => none

/-- All values are written back. -/
def markClean (a : SlotArena n G) : SlotArena n G := a.updateAll fun s => { s with dirty := false }

end SlotArena

end Dynarec
