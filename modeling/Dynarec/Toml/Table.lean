import Dynarec.Toml.Quoted
import Dynarec.Toml.Value

/-!
# Tables under construction

A table can be filled from several places of a text: by a header, by headers of tables inside it,
and by keys with dots.  While a text is read every table therefore remembers how it came up; what
may still be added to it depends on that.

* A header names a table once.  If the table has only come up as a part of other headers, that is
  its one time.
* A key with dots adds to tables that came up through such keys, and to no other; it may pass
  through tables that came up as a part of headers.
* A header of an array adds a table to it, and later keys and headers that name the array mean that
  table.
-/

namespace Dynarec

/-- How a table came up. -/
inductive TableOrigin where
  /-- Through a header of its own, or in braces. -/
  | header
  /-- As a part of another header. -/
  | implied
  /-- Through a key with dots. -/
  | dotted
deriving DecidableEq, Repr, Inhabited

/-- **An entry of a table under construction.** -/
inductive TomlNode where
  | value (v : TomlValue)
  | table (origin : TableOrigin) (entries : List (String × TomlNode))
  /-- An array whose tables have headers: the finished ones in front, and the last one. -/
  | tables (earlier : List TomlValue) (latest : List (String × TomlNode))
deriving Inhabited

/-- The entries of a table under construction. -/
abbrev TomlEntries := List (String × TomlNode)

namespace TomlNode

mutual

/-- An entry as a value. -/
def finish : TomlNode → TomlValue
  | value v => v
  | table _ entries => .table (finishEntries entries)
  | tables earlier latest => .array (earlier ++ [.table (finishEntries latest)])

/-- The entries of a table as values. -/
def finishEntries : List (String × TomlNode) → List (String × TomlValue)
  | [] => []
  | (key, node) :: rest => (key, finish node) :: finishEntries rest

end

end TomlNode

namespace TomlEntries

/-- Put an entry in the place of the one with its key, or at the end. -/
def put (key : String) (node : TomlNode) : TomlEntries → TomlEntries
  | [] => [(key, node)]
  | (k, other) :: rest => if k == key then (key, node) :: rest else (k, other) :: put key node rest

/-- A table as a value. -/
def finish (entries : TomlEntries) : List (String × TomlValue) := TomlNode.finishEntries entries

/-! ### Keys -/

/-- **Give a key a value.**  The key must be new, and the table it goes to must be `open_` to keys:
the one that the line belongs to, or one that came up through keys with dots. -/
def assign (open_ : Bool) : (parents : List String) → (key : String) → TomlValue → TomlEntries →
    Option TomlEntries
  | [], key, v, entries =>
    if open_ && (entries.lookup key).isNone then some (put key (.value v) entries) else none
  | parent :: parents, key, v, entries => do
    match entries.lookup parent with
    | none => return put parent (.table .dotted (← assign true parents key v [])) entries
    | some (.value _) => none
    | some (.table .header _) => none
    | some (.table origin inner) =>
      return put parent (.table origin (← assign (origin == .dotted) parents key v inner)) entries
    | some (.tables earlier latest) =>
      return put parent (.tables earlier (← assign false parents key v latest)) entries

/-- Give keys values, in order. -/
def assignAll (entries : TomlEntries) (lines : List (Toml.KeyPath × TomlValue)) :
    Option TomlEntries :=
  lines.foldlM (fun entries (key, v) => assign true key.parents key.last v entries) entries

/-! ### Headers -/

/-- Change the table that the first parts of a header lead to. -/
def descend (change : TomlEntries → Option TomlEntries) :
    (parents : List String) → TomlEntries → Option TomlEntries
  | [], entries => change entries
  | parent :: parents, entries => do
    match entries.lookup parent with
    | none => return put parent (.table .implied (← descend change parents [])) entries
    | some (.value _) => none
    | some (.table origin inner) =>
      return put parent (.table origin (← descend change parents inner)) entries
    | some (.tables earlier latest) =>
      return put parent (.tables earlier (← descend change parents latest)) entries

/-- The table of a header, with its lines. -/
def openTable (key : String) (lines : List (Toml.KeyPath × TomlValue)) (entries : TomlEntries) :
    Option TomlEntries := do
  match entries.lookup key with
  | none => return put key (.table .header (← assignAll [] lines)) entries
  | some (.table .implied inner) =>
    return put key (.table .header (← assignAll inner lines)) entries
  | _ => none

/-- One more table of an array, with its lines. -/
def appendTable (key : String) (lines : List (Toml.KeyPath × TomlValue)) (entries : TomlEntries) :
    Option TomlEntries := do
  match entries.lookup key with
  | none => return put key (.tables [] (← assignAll [] lines)) entries
  | some (.tables earlier latest) =>
    return put key (.tables (earlier ++ [.table (finish latest)]) (← assignAll [] lines)) entries
  | _ => none

end TomlEntries

end Dynarec
