import Dynarec.Host.Operation
import Dynarec.Lower.Slots

/-!
# The scalar register cache

While a block is compiled, scalar registers of the guest are bound to the host registers `R0` to
`R12`.  An action on the cache yields the host code that makes it true at run time: a load when a
register is first bound, a store when a dirty one has to go.
-/

namespace Dynarec

/-- What an action on a register cache yields: a host register, the code to emit, and the cache
after it. -/
structure Placed (R C : Type) where
  reg : R
  code : List Operation
  cache : C

/-- Bindings of scalar registers to the first thirteen host registers. -/
structure ScalarCache where
  arena : SlotArena 13 GuestReg

namespace ScalarCache

/-- The host register of a slot. -/
def hostReg (i : Fin 13) : HostReg := i.castLE (by decide)

/-- Nothing is bound. -/
def empty : ScalarCache := ⟨SlotArena.empty⟩

/-- The host register that holds a guest register, if any. -/
def location? (c : ScalarCache) (r : GuestReg) : Option HostReg := (c.arena.find? r).map hostReg

/-- The store that saves a dirty slot. -/
def saveCode (c : ScalarCache) (i : Fin 13) : List Operation :=
  match c.arena.held? i with
  | some (r, true) => [.storeGuest (hostReg i) r]
  | _ => []

/-- Use the slot that already holds a register. -/
def reuse (c : ScalarCache) (i : Fin 13) : ScalarCache := ⟨(c.arena.touch i).lock i⟩

/-- A slot for a register that is not bound. -/
def allocate? (c : ScalarCache) (r : GuestReg) : Option (Placed (Fin 13) ScalarCache) :=
  c.arena.select?.map fun i => ⟨i, c.saveCode i, ⟨(c.arena.clear i).assign i r⟩⟩

/-- The code that gives a newly bound register its value. -/
def loadCode (i : Fin 13) (r : GuestReg) : List Operation :=
  if r.isZero then [.movImm (hostReg i) 0] else [.loadGuest (hostReg i) r]

/-- **Bind a register with its current value.**  The binding stays locked. -/
def bind? (c : ScalarCache) (r : GuestReg) : Option (Placed HostReg ScalarCache) :=
  match c.arena.find? r with
  | some i => some ⟨hostReg i, [], c.reuse i⟩
  | none =>
    (c.allocate? r).map fun p => ⟨hostReg p.reg, p.code ++ loadCode p.reg r, p.cache⟩

/-- **Bind a register that is about to be written.**  Its old value is not loaded. -/
def bindForWrite? (c : ScalarCache) (r : GuestReg) : Option (Placed HostReg ScalarCache) :=
  match c.arena.find? r with
  | some i => some ⟨hostReg i, [], ⟨(c.reuse i).arena.setDirty i true⟩⟩
  | none =>
    (c.allocate? r).map fun p => ⟨hostReg p.reg, p.code, ⟨p.cache.arena.setDirty p.reg true⟩⟩

/-- A bound register was written; the zero register never is. -/
def markDirty (c : ScalarCache) (r : GuestReg) : ScalarCache :=
  if r.isZero then c
  else match c.arena.find? r with
    | some i => ⟨c.arena.setDirty i true⟩
    | none => c

/-- Write one register back if it is dirty; it stays bound. -/
def flush (c : ScalarCache) (r : GuestReg) : List Operation × ScalarCache :=
  match c.arena.find? r with
  | some i => (c.saveCode i, ⟨c.arena.setDirty i false⟩)
  | none => ([], c)

/-- Write all dirty registers back; they stay bound. -/
def flushAll (c : ScalarCache) : List Operation × ScalarCache :=
  (c.arena.dirtyBindings.map fun (i, r) => .storeGuest (hostReg i) r, ⟨c.arena.markClean⟩)

/-- Drop all bindings without writing back. -/
def discardAll (c : ScalarCache) : ScalarCache := ⟨c.arena.clearAll⟩

/-- Unlock all bindings. -/
def releaseLocks (c : ScalarCache) : ScalarCache := ⟨c.arena.releaseLocks⟩

end ScalarCache

end Dynarec
