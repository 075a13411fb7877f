/-!
# TOML values

Settings are written in TOML.  No setting is a fraction or a date, so these keep the characters that
they are written with.
-/

namespace Dynarec

/-- **A TOML value.** -/
inductive TomlValue where
  | string (text : String)
  | integer (n : Int)
  | fraction (literal : String)
  | boolean (b : Bool)
  /-- A date, a time, or both. -/
  | moment (literal : String)
  | array (items : List TomlValue)
  | table (entries : List (String × TomlValue))
deriving Inhabited

namespace TomlValue

/-- An integer. -/
def integer? : TomlValue → Option Int
  | integer n => some n
  | _ => none

/-- A truth value. -/
def boolean? : TomlValue → Option Bool
  | boolean b => some b
  | _ => none

/-- The value has no parts. -/
def isEmpty : TomlValue → Bool
  | array items => items.isEmpty
  | table entries => entries.isEmpty
  | _ => false

end TomlValue

end Dynarec
