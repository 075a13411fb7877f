import Dynarec.Options
import Dynarec.Text.Decimal
import Dynarec.Toml.Document

/-!
# Configuration

A configuration is a TOML text.  Settings that it does not name keep their defaults, and names that
are no settings do not matter; a setting of the wrong kind or out of range makes the whole text
invalid.  `Config.toText` writes every setting.
-/

namespace Dynarec

/-- **The configuration of an emulator.** -/
structure Config where
  /-- Guest code is recompiled, and not interpreted. -/
  recompile : Bool := true
  /-- Report what the recompiler does. -/
  trace : Bool := false
  /-- Cycles between two looks at the outside. -/
  sliceCycles : Int32 := 10000
  /-- Address of the first byte of memory. -/
  memoryBase : UInt32 := 0x08800000
  /-- Size of memory in bytes. -/
  memorySize : UInt32 := 0x01000000
  options : Options := {}
deriving DecidableEq, Repr, Inhabited

namespace Config

/-! ### Names -/

/-- The setting that chooses the engine. -/
def engineKey : String := "jit_mode"

/-- The names of the engines: the one that recompiles, and the one that does not. -/
def engineName (recompile : Bool) : String := if recompile then "on" else "off"

/-- The table of the recompiler's options. -/
def optionsKey : String := "jit"

/-- The names of the recompiler's options, in the order in which they are written. -/
def optionKeys : List String :=
  ["enable_blocklink", "downcount_in_register", "max_block_instructions", "code_space_size",
    "max_blocks", "assume_default_prefix"]

/-! ### Reading -/

/-- The engine of a name. -/
def engineNamed? (name : String) : Option Bool :=
  [true, false].find? fun recompile => engineName recompile == name

/-- The engine: its name, or its name as the only key of a table, with something empty as value. -/
def engine? : TomlValue → Option Bool
  | .string name => engineNamed? name
  | .table [(name, v)] => do
    guard v.isEmpty
    engineNamed? name
  | _ => none

/-- A signed word. -/
def signed? (v : TomlValue) : Option Int32 := do
  let n ← v.integer?
  guard (-2 ^ 31 ≤ n ∧ n < 2 ^ 31)
  return Int32.ofInt n

/-- An unsigned word. -/
def word? (v : TomlValue) : Option UInt32 := do
  let n ← v.integer?
  guard (0 ≤ n ∧ n < 2 ^ 32)
  return UInt32.ofInt n

/-- A count. -/
def count? (v : TomlValue) : Option Nat := do
  let n ← v.integer?
  guard (0 ≤ n)
  return n.toNat

/-- A setting, or its default if it is not there. -/
def setting {α : Type} (entries : List (String × TomlValue)) (read? : TomlValue → Option α)
    (key : String) (whenMissing : α) : Option α :=
  match entries.lookup key with
  | none => some whenMissing
  | some v => read? v

/-- The recompiler's options from the entries of their table. -/
def optionsOf? (entries : List (String × TomlValue)) : Option Options := do
  let standard : Options := {}
  return {
    linkBlocks :=
      ← setting entries TomlValue.boolean? "enable_blocklink" standard.linkBlocks
    downcountInRegister :=
      ← setting entries TomlValue.boolean? "downcount_in_register" standard.downcountInRegister
    maxBlockInstructions :=
      ← setting entries word? "max_block_instructions" standard.maxBlockInstructions
    codeSpaceSize := ← setting entries count? "code_space_size" standard.codeSpaceSize
    maxBlocks := ← setting entries count? "max_blocks" standard.maxBlocks
    assumeDefaultModifiers :=
      ← setting entries TomlValue.boolean? "assume_default_prefix"
        standard.assumeDefaultModifiers }

/-- The recompiler's options: a table, or an array with the first few of them in order.  A moment is
a table without any of them. -/
def options? : TomlValue → Option Options
  | .table entries => optionsOf? entries
  | .array items => optionsOf? (optionKeys.zip items)
  | .moment _ => some {}
  | _ => none

/-- A configuration from the entries of its table. -/
def ofEntries? (entries : List (String × TomlValue)) : Option Config := do
  let standard : Config := {}
  return {
    recompile := ← setting entries engine? engineKey standard.recompile
    trace := ← setting entries TomlValue.boolean? "trace_jit" standard.trace
    sliceCycles := ← setting entries signed? "slice_cycles" standard.sliceCycles
    memoryBase := ← setting entries word? "ram_base" standard.memoryBase
    memorySize := ← setting entries word? "ram_size" standard.memorySize
    options := ← setting entries options? optionsKey standard.options }

/-- **A configuration from a text.** -/
def ofText? (text : String) : Option Config := do ofEntries? (← Toml.read? text)

/-! ### Writing -/

/-- A truth value. -/
def flagText (b : Bool) : String := if b then "true" else "false"

/-- A line with a setting. -/
def settingLine (key value : String) : String := key ++ " = " ++ value ++ "\n"

/-- The texts of the recompiler's options, in the order of their names. -/
def optionTexts (o : Options) : List String :=
  [flagText o.linkBlocks, flagText o.downcountInRegister,
    Decimal.text o.maxBlockInstructions.toNat, Decimal.text o.codeSpaceSize,
    Decimal.text o.maxBlocks, flagText o.assumeDefaultModifiers]

/-- **The text of a configuration.** -/
def toText (c : Config) : String :=
  settingLine engineKey ("\"" ++ engineName c.recompile ++ "\"") ++
    settingLine "trace_jit" (flagText c.trace) ++
    settingLine "slice_cycles" (Decimal.signedText c.sliceCycles.toInt) ++
    settingLine "ram_base" (Decimal.text c.memoryBase.toNat) ++
    settingLine "ram_size" (Decimal.text c.memorySize.toNat) ++
    "\n[" ++ optionsKey ++ "]\n" ++
    String.join (List.zipWith settingLine optionKeys (optionTexts c.options))

end Config

end Dynarec
