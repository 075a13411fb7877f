import Dynarec.Failure
import Dynarec.Lower.Scalars

/-!
# The vector element cache

Elements of the vector file are cached one at a time in the float registers `F0` to `F19`, or four
at a time in the quad registers.  The two views overlap: before an element is bound in one view it
is written back and dropped from the other, so that it has at most one live copy.  Float registers
from `F20` on are temporaries of one instruction.
-/

namespace Dynarec

/-- Where the current value of an element is. -/
inductive ElementPlace where
  /-- Only in the guest state. -/
  | memory
  | float (slot : Fin 20)
  /-- A lane of a quad register. -/
  | quad (slot : Fin 8) (lane : Nat)
deriving DecidableEq, Repr, Inhabited

/-- **The cache of vector elements.** -/
structure ElementCache where
  /-- Elements bound to float registers. -/
  floats : SlotArena 20 Element
  /-- Quad vector registers bound to quad registers of the host. -/
  quads : SlotArena 8 (Fin 128)
  /-- Where every element is. -/
  places : Vector ElementPlace 128
  /-- Temporaries in use. -/
  temporaries : Nat

namespace ElementCache

/-- Number of temporaries. -/
def temporaryCount : Nat := 12

/-- The float register of a slot. -/
def floatReg (i : Fin 20) : FloatReg := i.castLE (by decide)

/-- The elements of a quad vector register. -/
def quadElements (reg : Fin 128) : List Element := VectorSize.quad.elements (UInt8.ofNat reg.val)

/-- Nothing is bound. -/
def empty : ElementCache :=
  ⟨SlotArena.empty, SlotArena.empty, Vector.replicate 128 .memory, 0⟩

/-- Where an element is. -/
def place (c : ElementCache) (e : Element) : ElementPlace := c.places.get e

/-- Record where an element is. -/
def setPlace (c : ElementCache) (e : Element) (p : ElementPlace) : ElementCache :=
  { c with places := c.places.set e p e.lt }

/-! ### Dropping bindings -/

/-- Write back and free a float slot. -/
def evictFloat (c : ElementCache) (i : Fin 20) : List Operation × ElementCache :=
  match c.floats.held? i with
  | none => ([], { c with floats := c.floats.clear i })
  | some (e, dirty) =>
    (if dirty then [.storeElement (floatReg i) (UInt8.ofNat e.val)] else [],
      { c with floats := c.floats.clear i }.setPlace e .memory)

/-- Write back and free a quad slot. -/
def evictQuad (c : ElementCache) (i : Fin 8) : List Operation × ElementCache :=
  match c.quads.held? i with
  | none => ([], { c with quads := c.quads.clear i })
  | some (reg, dirty) =>
    (if dirty then [.storeQuad i (UInt8.ofNat reg.val)] else [],
      (quadElements reg).foldl (fun c e => c.setPlace e .memory)
        { c with quads := c.quads.clear i })

/-- Write back and drop whatever holds an element. -/
def release (c : ElementCache) (e : Element) : List Operation × ElementCache :=
  match c.place e with
  | .memory => ([], c)
  | .float i => c.evictFloat i
  | .quad i _ => c.evictQuad i

/-- Write back and drop whatever holds any of the elements. -/
def releaseAll (c : ElementCache) : List Element → List Operation × ElementCache
  | [] => ([], c)
  | e :: rest =>
    let (first, c) := c.release e
    let (later, c) := c.releaseAll rest
    (first ++ later, c)

/-! ### Binding -/

/-- A float slot for an element that is in no register. -/
def allocateFloat? (c : ElementCache) (e : Element) (load : Bool) :
    Option (Placed (Fin 20) ElementCache) :=
  c.floats.select?.map fun i =>
    let (evicted, c) := c.evictFloat i
    let loading := if load then [.loadElement (floatReg i) (UInt8.ofNat e.val)] else []
    ⟨i, evicted ++ loading, { c with floats := c.floats.assign i e }.setPlace e (.float i)⟩

/-- **Bind one element.**  With `load` the register holds its value; without, the caller writes it
next, and it is dirty. -/
def bindElement? (c : ElementCache) (e : Element) (load : Bool) :
    Option (Placed FloatReg ElementCache) := do
  let (dropped, c) :=
    match c.place e with
    | .quad i _ => c.evictQuad i
    | _ => ([], c)
  let p ←
    match c.floats.find? e with
    | some i => some ⟨i, [], { c with floats := (c.floats.touch i).lock i }⟩
    | none => c.allocateFloat? e load
  let floats := if load then p.cache.floats else p.cache.floats.setDirty p.reg true
  return ⟨floatReg p.reg, dropped ++ p.code, { p.cache with floats := floats }⟩

/-- Record the lanes of a quad register. -/
def setLanes (c : ElementCache) (i : Fin 8) : (lane : Nat) → List Element → ElementCache
  | _, [] => c
  | lane, e :: rest => (c.setPlace e (.quad i lane)).setLanes i (lane + 1) rest

/-- A quad slot for a vector register that is not bound. -/
def allocateQuad? (c : ElementCache) (reg : Fin 128) (load : Bool) :
    Option (Placed QuadReg ElementCache) :=
  let (released, c) := c.releaseAll (quadElements reg)
  c.quads.select?.map fun i =>
    let (evicted, c) := c.evictQuad i
    let loading := if load then [.loadQuad i (UInt8.ofNat reg.val)] else []
    let quads := (c.quads.assign i reg).setDirty i (!load)
    ⟨i, released ++ evicted ++ loading, { c with quads := quads }.setLanes i 0 (quadElements reg)⟩

/-- **Bind the four elements of a vector register**, in register order.  With `load` the register
holds their values; without, the caller writes it next, and it is dirty. -/
def bindQuad? (c : ElementCache) (reg : Fin 128) (load : Bool) :
    Option (Placed QuadReg ElementCache) :=
  match c.quads.find? reg with
  | some i =>
    let quads := (c.quads.touch i).lock i
    some ⟨i, [], { c with quads := if load then quads else quads.setDirty i true }⟩
  | none => c.allocateQuad? reg load

/-- A temporary float register, valid until the locks are released. -/
def temporary? (c : ElementCache) : Option (Placed FloatReg ElementCache) :=
  if c.temporaries < temporaryCount then
    some ⟨Fin.ofNat 32 (20 + c.temporaries), [], { c with temporaries := c.temporaries + 1 }⟩
  else none

/-! ### The whole cache -/

/-- Unlock all bindings and free all temporaries. -/
def releaseLocks (c : ElementCache) : ElementCache :=
  { c with floats := c.floats.releaseLocks, quads := c.quads.releaseLocks, temporaries := 0 }

/-- Write all dirty bindings back; they stay bound. -/
def flushAll (c : ElementCache) : List Operation × ElementCache :=
  (c.floats.dirtyBindings.map (fun (i, e) => .storeElement (floatReg i) (UInt8.ofNat e.val)) ++
      c.quads.dirtyBindings.map (fun (i, reg) => .storeQuad i (UInt8.ofNat reg.val)),
    { c with floats := c.floats.markClean, quads := c.quads.markClean })

/-- Drop all bindings without writing back. -/
def discardAll (c : ElementCache) : ElementCache :=
  { c with
    floats := c.floats.clearAll
    quads := c.quads.clearAll
    places := Vector.replicate 128 .memory
    temporaries := 0 }

end ElementCache

end Dynarec
