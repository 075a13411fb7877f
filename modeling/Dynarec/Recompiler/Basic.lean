import Dynarec.Block.Cache
import Dynarec.Host.Listing
import Dynarec.Text.Column
import Dynarec.Text.Decimal
import Dynarec.Lower.Block

/-!
# The recompiler

A recompiler keeps compiled blocks and decides what a new one may assume.  Blocks assume that no
modifier is pending at their entry, as long as that holds: when the guard of a block fails, its
address is distrusted from then on.
-/

namespace Dynarec

/-- What the recompiler has done so far. -/
structure Statistics where
  blocksCompiled : Nat := 0
  cacheHits : Nat := 0
  cacheMisses : Nat := 0
  /-- Blocks dropped, by request or because their code was overwritten. -/
  blocksInvalidated : Nat := 0
  cacheClears : Nat := 0
  /-- Instructions that were interpreted instead. -/
  interpreted : Nat := 0
  /-- Guards that failed. -/
  modifierMismatches : Nat := 0
deriving DecidableEq, Repr, Inhabited

/-- **A recompiler.** -/
structure Recompiler where
  options : Options
  cache : BlockCache
  /-- New blocks may assume that no modifier is pending at their entry. -/
  assumesDefault : Bool
  /-- Addresses of blocks that may not, in increasing order. -/
  distrusted : List UInt32
  stats : Statistics

namespace Recompiler

/-- A recompiler without blocks. -/
def create (options : Options) : Except Failure Recompiler :=
  match CodeSpace.create? options.codeSpaceSize with
  | none => .error .codeSpaceSize
  | some code =>
    .ok
      { options := options
        cache := BlockCache.empty options.linkBlocks code
        assumesDefault := options.assumeDefaultModifiers
        distrusted := []
        stats := {} }

/-- Count something. -/
def count (r : Recompiler) (f : Statistics → Statistics) : Recompiler :=
  { r with stats := f r.stats }

/-- Put an address in its place, once. -/
def insertAddress (address : UInt32) : List UInt32 → List UInt32
  | [] => [address]
  | a :: rest =>
    if address < a then address :: a :: rest
    else if address == a then a :: rest
    else a :: insertAddress address rest

/-- The block at an address may not assume anything about modifiers any more. -/
def distrust (r : Recompiler) (address : UInt32) : Recompiler :=
  { r with distrusted := insertAddress address r.distrusted }

/-- **Drop every block that overlaps `length` bytes from `start`.**  The result is their number. -/
def invalidate (r : Recompiler) (start length : UInt32) : Except Violation (Nat × Recompiler) := do
  let (n, cache) ← r.cache.invalidate start length
  let r := { r with cache := cache }
  return (n, r.count fun s => { s with blocksInvalidated := s.blocksInvalidated + n })

/-- Drop every block that overlaps one of the ranges. -/
def invalidateAll (r : Recompiler) : List ChangedRange → Except Violation Recompiler
  | [] => .ok r
  | range :: rest => do
    let (_, r) ← r.invalidate range.start range.length
    r.invalidateAll rest

/-- Drop the block that an address lies in the middle of.  It is compiled again, up to that
address, when it is next run. -/
def split (r : Recompiler) (address : UInt32) : Except Violation Recompiler :=
  match r.cache.containing? address with
  | none => .ok r
  | some block => do
    let (_, r) ← r.invalidate block.start (block.stop - block.start)
    return r

/-- What a block at an address may assume, if the caller has no objection. -/
def entryAssumption (r : Recompiler) (address : UInt32) (allowed : Bool) : EntryAssumption :=
  if r.assumesDefault && allowed && !r.distrusted.contains address then .noModifiers
  else .anyModifiers

/-- Append the code of the block at an address, which ends in front of the next block. -/
def append (r : Recompiler) (memory : Memory) (address : UInt32) (entry : EntryAssumption) :
    Except Failure Block × Recompiler :=
  let setting : Setting :=
    { memory := memory
      options := r.options
      start := address
      entry := entry
      limit := r.cache.nextStartAfter? address }
  let (result, code) := lowerBlock setting r.cache.code
  (result, { r with cache := { r.cache with code := code } })

/-- Store a block that was appended, in place of the blocks that it overlaps. -/
def insert (r : Recompiler) (block : Block) : Except Violation (Nat × Recompiler) := do
  if block.stop < block.start then throw (.blockEnd block.start block.stop)
  let (_, r) ← r.invalidate block.start (block.stop - block.start)
  let (id, cache) ← r.cache.insert block
  let r := { r with cache := cache }
  return (id, r.count fun s => { s with blocksCompiled := s.blocksCompiled + 1 })

/-- The listing of the host code of a block, one line per word. -/
def listing (r : Recompiler) (block : Block) : List String :=
  (List.range (block.codeEnd - block.codeStart)).map fun n =>
    let offset := block.codeStart + n
    let text := ((r.cache.code.operation? offset).map Operation.listing).getD "<bad>"
    s!"{padLeft 6 (Decimal.text offset)}  {text}"

end Recompiler

end Dynarec
