import Dynarec.CommandLine.Run

/-!
# The program

Reads the files that a command line names, runs the command, and writes what it leaves behind.
-/

namespace Dynarec

/-- Why a file cannot be read. -/
def readError : IO.Error → String
  | .noFileOrDirectory .. => "No such file or directory (os error 2)"
  | e => toString e

/-- What an action yields, with errors as values. -/
def contents {α : Type} (action : IO α) : IO (FileContents α) :=
  try return .ok (← action)
  catch e => return .error (readError e)

/-- The contents of the file with the configuration, if a command names one. -/
def configContents (c : Command) : IO (FileContents String) :=
  match c with
  | .run { config := some path, .. } => contents (IO.FS.readFile path)
  | _ => return .ok ""

/-- The contents of the image, if a command names one. -/
def imageContents (c : Command) : IO (FileContents (List UInt8)) :=
  match c with
  | .run r => contents do return (← IO.FS.readBinFile r.image).toList
  | _ => return .ok []

/-- What a command line leaves behind. -/
def result (words : List String) : IO CommandResult := do
  match Command.read words with
  | .error e => return e.result
  | .ok c => return c.execute (← configContents c) (← imageContents c)

end Dynarec

/-- Run the command line. -/
def main (words : List String) : IO UInt32 := do
  let result ← Dynarec.result words
  IO.print result.output
  IO.eprint result.errors
  return result.status.toUInt32
