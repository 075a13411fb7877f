import Dynarec.Config
import Dynarec.Text.Radix

/-!
# Arguments

The words of a command line.  The one command runs an image; its options may come in any order and
once each.  The value of an option is the next word, or stands behind an equals sign; a next word
that starts with a minus sign is no value, unless it is nothing else.  Words are read from the left,
and the first one that is wrong decides, as does a request for help.
-/

namespace Dynarec

/-- An option with a value. -/
inductive ValueOption where
  | base | entry | cycles | engine | config
deriving DecidableEq, Repr, Inhabited

/-- An option without a value. -/
inductive Flag where
  | trace | noLinks | dumpState | dumpBlocks
deriving DecidableEq, Repr, Inhabited

/-- What is wrong with a command line. -/
inductive UsageError where
  | unknownCommand (word : String)
  | missingCommand
  | unexpected (word : String)
  | repeated (option : String)
  | missingValue (option : String)
  | needlessValue (option : String)
  | invalidValue (option value : String)
  | missingImage
deriving DecidableEq, Repr, Inhabited

/-- The message of a usage error. -/
def UsageError.message : UsageError → String
  | unknownCommand word => "error: unrecognized subcommand '" ++ word ++ "'"
  | missingCommand => "error: a subcommand is required"
  | unexpected word => "error: unexpected argument '" ++ word ++ "' found"
  | repeated option => "error: the argument '--" ++ option ++ "' cannot be used multiple times"
  | missingValue option => "error: a value is required for '--" ++ option ++ "' but none was supplied"
  | needlessValue option => "error: unexpected value for '--" ++ option ++ "' found; no more were expected"
  | invalidValue option value => "error: invalid value '" ++ value ++ "' for '--" ++ option ++ "'"
  | missingImage => "error: the required argument <IMAGE> was not provided"

/-- **What was asked for so far.** -/
structure Arguments where
  image : Option String := none
  base : Option UInt32 := none
  entry : Option UInt32 := none
  cycles : Option Nat := none
  engine : Option Bool := none
  config : Option String := none
  /-- The flags that were given, latest first. -/
  flags : List Flag := []
deriving DecidableEq, Repr, Inhabited

/-- **A request to run an image.** -/
structure RunRequest where
  image : String
  base : Option UInt32
  entry : Option UInt32
  cycles : Nat
  engine : Option Bool
  config : Option String
  flags : List Flag
deriving DecidableEq, Repr, Inhabited

/-- **A command.** -/
inductive Command where
  | help
  | runHelp
  | run (request : RunRequest)
deriving DecidableEq, Repr, Inhabited

namespace ValueOption

/-- All options with values. -/
def all : List ValueOption := [base, entry, cycles, engine, config]

/-- The name of an option. -/
def name : ValueOption → String
  | base => "base"
  | entry => "entry"
  | cycles => "cycles"
  | engine => "jit"
  | config => "config"

end ValueOption

namespace Flag

/-- All options without values. -/
def all : List Flag := [trace, noLinks, dumpState, dumpBlocks]

/-- The name of a flag. -/
def name : Flag → String
  | trace => "trace-jit"
  | noLinks => "no-blocklink"
  | dumpState => "dump-state"
  | dumpBlocks => "dump-blocks"

end Flag

namespace Arguments

/-- The cycles after which a run ends when nothing else is asked for. -/
def standardCycles : Nat := 100000000

/-! ### Values -/

/-- A number of at most so many bits. -/
def bounded? (bits : Nat) (n? : Option Nat) : Option Nat := do
  let n ← n?
  guard (n < Nat.pow 2 bits)
  return n

/-- An address, in decimal or behind `0x` in hexadecimal. -/
def address? (text : String) : Option UInt32 :=
  let n? :=
    match text.toList with
    | '0' :: 'x' :: digits => Radix.number? 16 digits
    | '0' :: 'X' :: digits => Radix.number? 16 digits
    | digits => Radix.number? 10 digits
  (bounded? 32 n?).map UInt32.ofNat

/-- A number of cycles. -/
def cycles? (text : String) : Option Nat := bounded? 64 (Radix.number? 10 text.toList)

/-- A path. -/
def path? (text : String) : Option String := if text.isEmpty then none else some text

/-- The option was given. -/
def has (a : Arguments) : ValueOption → Bool
  | .base => a.base.isSome
  | .entry => a.entry.isSome
  | .cycles => a.cycles.isSome
  | .engine => a.engine.isSome
  | .config => a.config.isSome

/-- Take the value of an option, if it is one. -/
def set? (a : Arguments) (option : ValueOption) (value : String) : Option Arguments :=
  match option with
  | .base => (address? value).map fun x => { a with base := some x }
  | .entry => (address? value).map fun x => { a with entry := some x }
  | .cycles => (cycles? value).map fun x => { a with cycles := some x }
  | .engine => (Config.engineNamed? value).map fun x => { a with engine := some x }
  | .config => (path? value).map fun x => { a with config := some x }

/-- Take an option with its value. -/
def setValue (a : Arguments) (option : ValueOption) (value : String) :
    Except UsageError Arguments :=
  if a.has option then .error (.repeated option.name)
  else
    match a.set? option value with
    | some a => .ok a
    | none => .error (.invalidValue option.name value)

/-- Take a flag. -/
def setFlag (a : Arguments) (flag : Flag) : Except UsageError Arguments :=
  if a.flags.contains flag then .error (.repeated flag.name)
  else .ok { a with flags := flag :: a.flags }

/-- Take a word that is no option: the image. -/
def setImage (a : Arguments) (word : String) : Except UsageError Arguments :=
  match a.image with
  | some _ => .error (.unexpected word)
  | none =>
    match path? word with
    | some path => .ok { a with image := some path }
    | none => .error .missingImage

/-- Take words none of which is an option. -/
def setImages (a : Arguments) (words : List String) : Except UsageError Arguments :=
  words.foldlM setImage a

/-! ### Words -/

/-- **What a word looks like.** -/
inductive Word where
  /-- The words that follow are no options. -/
  | separator
  /-- An option by its name, and the value behind the equals sign. -/
  | long (name : String) (value : Option String)
  /-- Options by letters. -/
  | short (letters : List Char)
  | plain (word : String)
deriving DecidableEq, Repr, Inhabited

/-- The name of an option, and the value behind the equals sign. -/
def splitValue (text : List Char) : String × Option String :=
  let name := String.ofList (text.takeWhile (· != '='))
  match text.dropWhile (· != '=') with
  | _ :: value => (name, some (String.ofList value))
  | [] => (name, none)

/-- What a word looks like. -/
def Word.ofString (word : String) : Word :=
  match word.toList with
  | ['-', '-'] => .separator
  | '-' :: '-' :: text =>
    let (name, value) := splitValue text
    .long name value
  | '-' :: c :: letters => .short (c :: letters)
  | _ => .plain word

/-- What a name or letter stands for. -/
inductive Meaning where
  | valueOption (option : ValueOption)
  | flag (flag : Flag)
  | help
deriving DecidableEq, Repr, Inhabited

/-- What a name stands for. -/
def meaning? (name : String) : Option Meaning :=
  if name == "help" then some .help
  else
    ((ValueOption.all.find? fun o => o.name == name).map .valueOption) <|>
      ((Flag.all.find? fun f => f.name == name).map .flag)

/-- The request, when all words are read. -/
def request (a : Arguments) : Except UsageError Command :=
  match a.image with
  | none => .error .missingImage
  | some image =>
    .ok (.run
      { image := image
        base := a.base
        entry := a.entry
        cycles := a.cycles.getD standardCycles
        engine := a.engine
        config := a.config
        flags := a.flags })

/-- **Read the words of a request.** -/
def read (a : Arguments) : List String → Except UsageError Command
  | [] => a.request
  | word :: rest =>
    match Word.ofString word with
    | .separator => do (← a.setImages rest).request
    | .plain word => do (← a.setImage word).read rest
    | .short ('h' :: _) => .ok .runHelp
    | .short _ => .error (.unexpected word)
    | .long name value =>
      match meaning? name, value with
      | none, _ => .error (.unexpected word)
      | some .help, none => .ok .runHelp
      | some .help, some _ => .error (.needlessValue name)
      | some (.flag flag), none => do (← a.setFlag flag).read rest
      | some (.flag _), some _ => .error (.needlessValue name)
      | some (.valueOption option), some value => do (← a.setValue option value).read rest
      | some (.valueOption option), none =>
        match rest with
        | [] => .error (.missingValue name)
        | value :: rest =>
          match Word.ofString value with
          | .plain value => do (← a.setValue option value).read rest
          | _ => .error (.missingValue name)

end Arguments

/-- **Read a command line.** -/
def Command.read : List String → Except UsageError Command
  | [] => .error .missingCommand
  | "run" :: words => ({} : Arguments).read words
  | "help" :: [] => .ok .help
  | "help" :: "run" :: _ => .ok .runHelp
  | "--help" :: _ => .ok .help
  | "-h" :: _ => .ok .help
  | word :: _ => .error (.unknownCommand word)

end Dynarec
