import Dynarec.Json.Reader
import Dynarec.Recompiler.Session

/-!
# Saved states of a recompiler

What a recompiler has learned about modifiers can be saved and loaded.  Compiled code is never part
of it: loading drops all code.  A text that is no saved state changes nothing.
-/

namespace Dynarec

/-- **A saved state.** -/
structure Snapshot where
  version : UInt32
  /-- New blocks may assume that no modifier is pending at their entry. -/
  assumesDefault : Bool
  /-- Addresses of blocks that may not. -/
  distrusted : List UInt32
deriving DecidableEq, Repr, Inhabited

namespace Snapshot

/-- The version that is written, and the only one that is read. -/
def currentVersion : UInt32 := 1

/-! ### Text -/

/-- The keys of the three fields. -/
def versionKey : String := "version"

/-- The key of the assumption. -/
def assumesDefaultKey : String := "start_default_prefix"

/-- The key of the addresses. -/
def distrustedKey : String := "assume_unknown"

/-- A saved state as a value. -/
def toJson (s : Snapshot) : JsonValue :=
  .record
    [(versionKey, .ofNat s.version.toNat),
     (assumesDefaultKey, .bool s.assumesDefault),
     (distrustedKey, .array (s.distrusted.map fun address => .ofNat address.toNat))]

/-- **The text of a saved state.** -/
def toText (s : Snapshot) : String := s.toJson.compact

/-- The fields from their values. -/
def ofValues? (version assumesDefault distrusted : JsonValue) : Option Snapshot := do
  return ⟨← version.word?, ← assumesDefault.bool?, ← (← distrusted.items?).mapM (·.word?)⟩

/-- The value of a key that occurs exactly once. -/
def field? (fields : List (Option String × JsonValue)) (key : String) : Option JsonValue :=
  match fields.filter fun f => f.1 == some key with
  | [(_, value)] => some value
  | _ => none

/-- A saved state from a value: an object with each field once, in which other fields do not count
as long as their keys are texts, or an array of the three fields. -/
def ofJson? : JsonValue → Option Snapshot
  | .object fields => do
    guard (fields.all fun f => f.1.isSome)
    ofValues? (← field? fields versionKey) (← field? fields assumesDefaultKey)
      (← field? fields distrustedKey)
  | .array [version, assumesDefault, distrusted] => ofValues? version assumesDefault distrusted
  | _ => none

/-- **A saved state from a text.** -/
def ofText (text : String) : Except SnapshotError Snapshot :=
  match (JsonValue.ofText? text).bind ofJson? with
  | none => .error .malformed
  | some s => if s.version = currentVersion then .ok s else .error (.unsupportedVersion s.version)

end Snapshot

/-! ### Saving and loading -/

/-- What a recompiler has learned. -/
def Recompiler.snapshot (r : Recompiler) : Snapshot :=
  ⟨Snapshot.currentVersion, r.assumesDefault, r.distrusted⟩

/-- Take over what was learned. -/
def Recompiler.restore (r : Recompiler) (s : Snapshot) : Recompiler :=
  { r with
    assumesDefault := s.assumesDefault
    distrusted := s.distrusted.foldl (fun l address => Recompiler.insertAddress address l) [] }

/-- **Load a saved state.**  All code is dropped; a text that is refused changes nothing. -/
def Session.load (s : Session) (text : String) : Answer Unit :=
  match Snapshot.ofText text with
  | .error e => (.error (.snapshot e), s)
  | .ok snapshot =>
    let ⟨r, machine⟩ := s.clear
    (.ok (), ⟨r.restore snapshot, machine⟩)

end Dynarec
