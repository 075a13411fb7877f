import Dynarec.CommandLine.Help
import Dynarec.Console
import Dynarec.StateDump

/-!
# Running a command

A command yields an exit status and what is written to the two output streams.  The files that it
needs are given as what reading them yielded.  Errors are reported in the order in which the steps
need them: the configuration, the image, the engine, the place of the image in memory, the run.
-/

namespace Dynarec

/-- What reading a file yields: its contents, or why there are none. -/
abbrev FileContents (α : Type) := Except String α

/-- **What a command leaves behind.** -/
structure CommandResult where
  status : UInt8
  output : String := ""
  errors : String := ""
deriving DecidableEq, Repr, Inhabited

namespace CommandResult

/-- Nothing is wrong. -/
def success : UInt8 := 0

/-- The command failed. -/
def failure : UInt8 := 1

/-- The command line is wrong. -/
def usage : UInt8 := 2

/-- A promise was broken. -/
def broken : UInt8 := 101

/-- Lines of text. -/
def lines (l : List String) : String := String.join (l.map (· ++ "\n"))

/-- Nothing but a message. -/
def failed (message : String) : CommandResult := ⟨failure, "", lines [message]⟩

end CommandResult

namespace RunRequest

/-- The configuration, as the file and then the options have it. -/
def config? (r : RunRequest) (text : FileContents String) : Except String Config := do
  let config ←
    match r.config with
    | none => pure {}
    | some path =>
      match text with
      | .error reason => throw s!"failed to read {path}: {reason}"
      | .ok text =>
        match Config.ofText? text with
        | some config => pure config
        | none => throw s!"failed to parse {path}: invalid configuration"
  let options := config.options
  return { config with
    recompile := r.engine.getD config.recompile
    trace := config.trace || r.flags.contains .trace
    options := { options with linkBlocks := options.linkBlocks && !r.flags.contains .noLinks } }

/-- An emulator with the image in its memory. -/
def prepare (r : RunRequest) (config : Config) (image : FileContents (List UInt8)) :
    Except Violation (Except String Emulator) := do
  match image, Engine.create config.recompile config.options with
  | .error reason, _ => return .error s!"failed to read {r.image}: {reason}"
  | .ok _, .error failure => return .error failure.message
  | .ok bytes, .ok engine =>
    let e := Emulator.create engine config.memoryBase config.memorySize config.sliceCycles
    let base := r.base.getD config.memoryBase
    match ← e.loadImage base bytes (r.entry.getD base) with
    | .error misfit => return .error misfit.message
    | .ok e => return .ok e

/-- The message of a run that was stopped by a fault. -/
def faultLines : StopReason → List String
  | .fault pc word =>
    [s!"error: core stopped at {Hex.word pc} (instruction {Hex.word word})"]
  | _ => []

/-- What a run leaves behind that ended for a reason. -/
def report (r : RunRequest) (e : Emulator) (console : Console) (reason : StopReason) : CommandResult :=
  let dumps (flag : Flag) (l : List String) : List String :=
    if r.flags.contains flag then l else []
  let listings := (e.engine.recompiler?.map Recompiler.listings).getD []
  let faults := faultLines reason
  { status := if faults.isEmpty then CommandResult.success else CommandResult.failure
    output := console.output ++ CommandResult.lines (dumps .dumpState [(e.dump reason).pretty])
    errors := CommandResult.lines (dumps .dumpBlocks listings ++ faults) }

/-- Prepare an emulator and run it. -/
def perform (r : RunRequest) (config : Config) (image : FileContents (List UInt8)) :
    Except Violation CommandResult := do
  match ← r.prepare config image with
  | .error message => return .failed message
  | .ok e =>
    let (result, e, console) ← e.runUntil Console.syscall r.cycles {}
    match result with
    | .ok reason => return r.report e console reason
    | .error failure =>
      return ⟨CommandResult.failure, console.output, CommandResult.lines [s!"error: {failure.message}"]⟩

/-- **Run an image.** -/
def execute (r : RunRequest) (config : FileContents String) (image : FileContents (List UInt8)) :
    CommandResult :=
  match r.config? config with
  | .error message => .failed s!"error: {message}"
  | .ok config =>
    match r.perform config image with
    | .ok result => result
    | .error _ => ⟨CommandResult.broken, "", CommandResult.lines ["error: a promise was broken"]⟩

end RunRequest

/-- **Run a command.**  The files are asked for by path. -/
def Command.execute (configFile : FileContents String) (imageFile : FileContents (List UInt8)) :
    Command → CommandResult
  | .help => ⟨CommandResult.success, CommandResult.lines Help.programLines, ""⟩
  | .runHelp => ⟨CommandResult.success, CommandResult.lines Help.runLines, ""⟩
  | .run r => r.execute configFile imageFile

/-- What a wrong command line leaves behind. -/
def UsageError.result (e : UsageError) : CommandResult :=
  ⟨CommandResult.usage, "", CommandResult.lines [e.message, "", "For more information, try '--help'."]⟩

end Dynarec
