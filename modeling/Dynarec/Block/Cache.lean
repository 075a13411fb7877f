import Dynarec.Block.Basic
import Dynarec.Host.CodeSpace

/-!
# The block cache

The cache owns the code space and all blocks whose code lies in it.  Blocks are numbered in the
order in which they were stored.  A dropped block keeps its number, but is not found any more; its
code is only reclaimed when the whole cache is cleared.  Valid blocks do not overlap, so one list in
address order answers every question about addresses.

With linking, an exit whose target has a block jumps to it; every other exit waits for its target.
When a block is dropped, the exits that jump to it are pointed back at the dispatcher and wait
again.
-/

namespace Dynarec

/-- A valid block in the address index. -/
structure Indexed where
  start : UInt32
  id : Nat
deriving DecidableEq, Repr, Inhabited

/-- An exit that waits for a block at its target. -/
structure PendingLink where
  target : UInt32
  source : ExitRef
deriving DecidableEq, Repr, Inhabited

/-- What the cache has done so far. -/
structure CacheStats where
  inserted : Nat := 0
  invalidated : Nat := 0
  linksPatched : Nat := 0
  linksUnpatched : Nat := 0
  clears : Nat := 0
deriving DecidableEq, Repr, Inhabited

/-- **The block cache.** -/
structure BlockCache where
  code : CodeSpace
  /-- All stored blocks, by number. -/
  blocks : Array Block
  /-- The valid blocks by increasing address. -/
  index : List Indexed
  /-- Unlinked exits of valid blocks, if linking is on. -/
  pending : List PendingLink
  /-- Exits are linked. -/
  linking : Bool
  stats : CacheStats

namespace BlockCache

/-- No blocks. -/
def empty (linking : Bool) (code : CodeSpace) : BlockCache where
  code := code
  blocks := #[]
  index := []
  pending := []
  linking := linking
  stats := {}

/-! ### Looking up -/

/-- Number of valid blocks. -/
def size (c : BlockCache) : Nat := c.index.length

/-- Number of stored blocks, valid or not. -/
def stored (c : BlockCache) : Nat := c.blocks.size

/-- Number of exits that wait for their target. -/
def pendingCount (c : BlockCache) : Nat := c.pending.length

/-- A stored block. -/
def block? (c : BlockCache) (id : Nat) : Option Block := c.blocks[id]?

/-- A block that is known to be stored. -/
def blockAt (c : BlockCache) (id : Nat) : Block := c.blocks.getD id default

/-- The number of the valid block that starts at an address. -/
def find? (c : BlockCache) (address : UInt32) : Option Nat :=
  (c.index.find? fun e => e.start == address).map Indexed.id

/-- The valid block that starts at an address. -/
def lookup? (c : BlockCache) (address : UInt32) : Option Block := (c.find? address).map c.blockAt

/-- The valid block that contains an address. -/
def containing? (c : BlockCache) (address : UInt32) : Option Block := do
  let entry ← (c.index.takeWhile fun e => e.start ≤ address).getLast?
  let block := c.blockAt entry.id
  guard (block.contains address)
  return block

/-- The start of the first valid block above an address. -/
def nextStartAfter? (c : BlockCache) (address : UInt32) : Option UInt32 :=
  (c.index.find? fun e => address < e.start).map Indexed.start

/-- The valid blocks by increasing address. -/
def valid (c : BlockCache) : List Block := c.index.map fun e => c.blockAt e.id

/-- The numbers of the valid blocks that overlap `[start, stop)`, by decreasing address. -/
def overlapping (c : BlockCache) (start stop : UInt32) : List Nat :=
  ((c.index.takeWhile fun e => e.start < stop).reverse.map Indexed.id).takeWhile fun id =>
    start < (c.blockAt id).stop

/-! ### The index -/

/-- Put an entry in its place; it replaces one with the same address. -/
def insertEntry (entry : Indexed) : List Indexed → List Indexed
  | [] => [entry]
  | e :: rest =>
    if entry.start < e.start then entry :: e :: rest
    else if entry.start == e.start then entry :: rest
    else e :: insertEntry entry rest

/-- Change a stored block. -/
def modifyBlock (c : BlockCache) (id : Nat) (f : Block → Block) : BlockCache :=
  { c with blocks := c.blocks.modify id f }

/-- Count something. -/
def count (c : BlockCache) (f : CacheStats → CacheStats) : BlockCache := { c with stats := f c.stats }

/-! ### Links -/

/-- Replace the word of an exit. -/
def patchExit (c : BlockCache) (source : ExitRef) (op : Operation) :
    Except Violation BlockCache := do
  match (c.blockAt source.block).exits[source.exit]? with
  | none => return c
  | some exit => return { c with code := ← c.code.patch exit.stub op.encode }

/-- Say whether an exit is linked. -/
def setLinked (c : BlockCache) (source : ExitRef) (linked : Bool) : BlockCache :=
  c.modifyBlock source.block (·.modifyExit source.exit fun e => { e with linked := linked })

/-- Let an exit jump to a block. -/
def link (c : BlockCache) (source : ExitRef) (target : Nat) : Except Violation BlockCache := do
  let c ← c.patchExit source (.jump (UInt32.ofNat (c.blockAt target).checkedEntry))
  let c := c.setLinked source true
  let c := c.modifyBlock target fun b => { b with incoming := b.incoming ++ [source] }
  return c.count fun s => { s with linksPatched := s.linksPatched + 1 }

/-- Let an exit wait for its target. -/
def await (c : BlockCache) (target : UInt32) (source : ExitRef) : BlockCache :=
  { c with pending := c.pending ++ [⟨target, source⟩] }

/-- Let exits of valid blocks jump to a block. -/
def linkAll (c : BlockCache) (target : Nat) : List ExitRef → Except Violation BlockCache
  | [] => .ok c
  | source :: rest => do
    let c ← if (c.blockAt source.block).valid then c.link source target else .ok c
    c.linkAll target rest

/-- Link the exits that wait for an address to the block that starts there. -/
def linkWaiting (c : BlockCache) (start : UInt32) (id : Nat) : Except Violation BlockCache :=
  let (waiting, others) := c.pending.partition fun p => p.target == start
  { c with pending := others }.linkAll id (waiting.map PendingLink.source)

/-- Link the exits of a block, given with their positions, or let them wait. -/
def linkExits (c : BlockCache) (id : Nat) : List (Exit × Nat) → Except Violation BlockCache
  | [] => .ok c
  | (exit, n) :: rest => do
    let c ←
      match c.find? exit.target with
      | some target => c.link ⟨id, n⟩ target
      | none => .ok (c.await exit.target ⟨id, n⟩)
    c.linkExits id rest

/-! ### Storing -/

/-- Store a block, without links. -/
def store (c : BlockCache) (b : Block) : BlockCache :=
  let fresh : Block :=
    { b with
      valid := true
      incoming := []
      exits := b.exits.map fun e => { e with linked := false } }
  { c with
    blocks := c.blocks.push fresh
    index := insertEntry ⟨b.start, c.blocks.size⟩ c.index
    stats := { c.stats with inserted := c.stats.inserted + 1 } }

/-- **Store a finished block** and link it: first the exits that wait for it, then its own.  It must
not overlap a valid block.  The result is its number. -/
def insert (c : BlockCache) (b : Block) : Except Violation (Nat × BlockCache) := do
  match (c.overlapping b.start b.stop).head? with
  | some other => throw (.overlappingBlock b.start b.stop (c.blockAt other).start)
  | none =>
    let id := c.blocks.size
    let c := c.store b
    if c.linking then
      let c ← c.linkWaiting b.start id
      let c ← c.linkExits id b.exits.toList.zipIdx
      return (id, c)
    else return (id, c)

/-! ### Dropping -/

/-- Point exits that jump to a dropped block back at the dispatcher.  Exits of other valid blocks
wait for the address again. -/
def unlinkIncoming (c : BlockCache) (id : Nat) (start : UInt32) :
    List ExitRef → Except Violation BlockCache
  | [] => .ok c
  | source :: rest => do
    let c ← c.patchExit source (.exitDispatch start)
    let c := c.setLinked source false
    let c := c.count fun s => { s with linksUnpatched := s.linksUnpatched + 1 }
    let waits := source.block != id && (c.blockAt source.block).valid && c.linking
    let c := if waits then c.await start source else c
    c.unlinkIncoming id start rest

/-- Forget one exit of a dropped block: its target does not list it any more, or it does not wait
any more. -/
def forgetExit (c : BlockCache) (id : Nat) (exit : Exit) (n : Nat) : BlockCache :=
  if exit.linked then
    match c.find? exit.target with
    | some target =>
      c.modifyBlock target fun b =>
        { b with incoming := b.incoming.filter fun source => source != ⟨id, n⟩ }
    | none => c
  else
    { c with
      pending := c.pending.filter fun p => p.target != exit.target || p.source.block != id }

/-- **Drop a block.** -/
def drop (c : BlockCache) (id : Nat) : Except Violation BlockCache := do
  let block := c.blockAt id
  let c := { c with index := c.index.filter fun e => e.start != block.start }
  let c := c.modifyBlock id fun b => { b with valid := false, incoming := [] }
  let c := c.count fun s => { s with invalidated := s.invalidated + 1 }
  let c ← c.unlinkIncoming id block.start block.incoming
  return (c.blockAt id).exits.toList.zipIdx.foldl (fun c (exit, n) => c.forgetExit id exit n) c

/-- Drop several blocks. -/
def dropAll (c : BlockCache) : List Nat → Except Violation BlockCache
  | [] => .ok c
  | id :: rest => do (← c.drop id).dropAll rest

/-- The address after `length` bytes, one at least; the last address when there is none. -/
def rangeEnd (start length : UInt32) : UInt32 :=
  let stop := start.toNat + Nat.max length.toNat 1
  if stop < 2 ^ 32 then UInt32.ofNat stop else 0xFFFFFFFF

/-- **Drop every valid block that overlaps `length` bytes from `start`**, at least one byte.  The
result is their number. -/
def invalidate (c : BlockCache) (start length : UInt32) : Except Violation (Nat × BlockCache) := do
  let victims := c.overlapping start (rangeEnd start length)
  return (victims.length, ← c.dropAll victims)

/-- Drop all blocks and all code. -/
def clear (c : BlockCache) : BlockCache :=
  { c with
    code := c.code.reset
    blocks := #[]
    index := []
    pending := []
    stats := { c.stats with clears := c.stats.clears + 1 } }

end BlockCache

end Dynarec
