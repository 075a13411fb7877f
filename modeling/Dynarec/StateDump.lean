import Dynarec.Emulator
import Dynarec.Json.Value
import Dynarec.Single.Text

/-!
# State dumps

When a run has ended its outcome can be written as JSON: why it ended, the whole state of the core,
and what the recompiler did.  Elements of the vector file that are no finite numbers are null.
-/

namespace Dynarec

/-- A word. -/
def JsonValue.ofWord (w : UInt32) : JsonValue := .ofNat w.toNat

/-- A value that may be missing. -/
def JsonValue.optional {α : Type} (f : α → JsonValue) : Option α → JsonValue
  | some x => f x
  | none => .null

/-- A single. -/
def Single.toJson (x : Single) : JsonValue := JsonValue.optional .number x.text?

/-- Stopped by a breakpoint at `pc`. -/
def breakpointJson (pc : UInt32) : JsonValue :=
  .record [("Break", .record [("pc", .ofWord pc)])]

/-- Stopped at `pc` by a word that cannot be executed. -/
def faultJson (pc word : UInt32) : JsonValue :=
  .record [("Error", .record [("pc", .ofWord pc), ("op", .ofWord word)])]

/-- Whether the core runs. -/
def RunState.toJson : RunState → JsonValue
  | .running => .ofString "Running"
  | .halted => .ofString "Halted"
  | .stopped pc => breakpointJson pc
  | .faulted pc word => faultJson pc word

/-- Why a run ended. -/
def StopReason.toJson : StopReason → JsonValue
  | .cycleTarget => .ofString "CycleTarget"
  | .halted => .ofString "Halted"
  | .breakpoint pc => breakpointJson pc
  | .fault pc word => faultJson pc word
  | .exitRequested => .ofString "ExitRequested"

/-- The state of the core. -/
def Core.toJson (c : Core) : JsonValue :=
  .record
    [("r", .array (c.gprs.toList.map .ofWord)),
     ("hi", .ofWord c.hi),
     ("lo", .ofWord c.lo),
     ("pc", .ofWord c.pc),
     ("v", .array (c.elements.toList.map Single.toJson)),
     ("vfpu_ctrl", .array (c.controls.toList.map .ofWord)),
     ("downcount", .ofInt c.downcount.toInt),
     ("core_state", c.runState.toJson),
     ("in_delay_slot", .bool c.inDelaySlot),
     ("branch_target", .optional .ofWord c.branchTarget)]

/-- What the recompiler did. -/
def Statistics.toJson (s : Statistics) : JsonValue :=
  .record
    [("blocks_compiled", .ofNat s.blocksCompiled),
     ("cache_hits", .ofNat s.cacheHits),
     ("cache_misses", .ofNat s.cacheMisses),
     ("blocks_invalidated", .ofNat s.blocksInvalidated),
     ("cache_clears", .ofNat s.cacheClears),
     ("interpreted", .ofNat s.interpreted),
     ("prefix_mismatches", .ofNat s.modifierMismatches)]

/-- What the block cache did. -/
def CacheStats.toJson (s : CacheStats) : JsonValue :=
  .record
    [("inserted", .ofNat s.inserted),
     ("invalidated", .ofNat s.invalidated),
     ("links_patched", .ofNat s.linksPatched),
     ("links_unpatched", .ofNat s.linksUnpatched),
     ("clears", .ofNat s.clears)]

/-- **The outcome of a run.**  Without a recompiler there is nothing to say about it. -/
def Emulator.dump (e : Emulator) (reason : StopReason) : JsonValue :=
  let recompiler := e.engine.recompiler?
  .record
    [("exit", reason.toJson),
     ("cycles", .ofNat e.cycles),
     ("state", e.machine.core.toJson),
     ("jit", .optional (fun r => r.stats.toJson) recompiler),
     ("block_cache", .optional (fun r => r.cache.stats.toJson) recompiler)]

/-- The host code of every valid block, by address: a line about the block, and one per host word. -/
def Recompiler.listings (r : Recompiler) : List String :=
  r.cache.valid.flatMap fun block =>
    s!"block {Hex.word block.start}..{Hex.word block.stop} ({Decimal.text block.instructions.toNat} instructions)" ::
      (r.listing block).map ("  " ++ ·)

end Dynarec
