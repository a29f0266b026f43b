import Polyglot.CommandLine.Perform

/-!
# The program

Reads the arguments, the file, the input and the environment, performs the command
and writes what it comes to.
-/

namespace Polyglot

open Polyglot.CommandLine

/-- What is printed when help is asked for. -/
def helpText : String := unlines [
  "Reads, prints, compiles and runs sources in several small languages",
  "",
  "Usage: polyglot [-v]... <COMMAND>",
  "",
  "Commands:",
  "  run <FILE> [--lang <LANG>] [--mem-size <N>] [--stack-size <N>] [--max-steps <N>]",
  "  synth <FILE> --to <KIND> [--via <KIND>]... [--lang <LANG>] [-o <PATH>]",
  "  format <FILE> [--lang <LANG>]",
  "  kinds"]

/-- What is printed when the version is asked for. -/
def versionText : String := unlines ["polyglot 0.1.0"]

/-- What is said about arguments that make no sense. -/
def complaintText : UsageError → String
  | .unknownCommand name => s!"unrecognized subcommand '{name}'"
  | .unknownArgument argument => s!"unexpected argument '{argument}' found"
  | .unneededValue option => s!"unexpected value for '--{option}'"
  | .emptyValue option => s!"a value is required for '--{option}'"
  | .invalidNumber option value => s!"invalid value '{value}' for '--{option}'"
  | .repeatedOption option => s!"'--{option}' cannot be used multiple times"
  | .missingArgument name => s!"'{name}' was not provided"
  | _ => "a subcommand is required"

/-- The variables that the program looks at. -/
def environmentNames : List String :=
  ["WORKBENCH_MEM_SIZE", "WORKBENCH_STACK_SIZE", "WORKBENCH_MAX_STEPS"]

/-- The reason of the system for not giving a file. -/
def fileErrorOf : IO.Error → FileError
  | .noFileOrDirectory .. => .missing
  | e => .other (toString e)

/-- The content of a file. -/
def readFile (path : String) : IO (Except FileError (List UInt8)) := do
  try return .ok (← IO.FS.readBinFile path).toList
  catch e => return .error (fileErrorOf e)

/-- Writes the file of an outcome, if there is one. -/
def writeFile (o : Outcome) : IO Outcome := do
  match o.written with
  | none => return o
  | some (path, bytes) =>
    try
      IO.FS.writeBinFile path ⟨bytes.toArray⟩
      return o
    catch e => return o.unwritten .plain (fileErrorOf e)

/-- Performs a command. -/
def performCommand (command : Command) : IO UInt32 := do
  let env ← environmentNames.filterMapM fun name => do
    return (← IO.getEnv name).map fun value => (name, value)
  let content ← match command.file? with
    | some path => readFile path
    | none => pure (.ok [])
  let input ← match command with
    | .run .. => (·.toList) <$> (← IO.getStdin).readBinToEnd
    | _ => pure []
  let outcome ← writeFile (command.perform .plain env content input)
  let stdout ← IO.getStdout
  stdout.write ⟨outcome.output.toArray⟩
  stdout.flush
  IO.eprint outcome.complaints
  return outcome.status.toUInt32

end Polyglot

/-- The entry of the program. -/
def main (arguments : List String) : IO UInt32 := do
  match Polyglot.CommandLine.Options.parse arguments with
  | .ok options => Polyglot.performCommand options.command
  | .error e =>
    match e with
    | .helpRequest => IO.print Polyglot.helpText
    | .versionRequest => IO.print Polyglot.versionText
    | .nothingAsked => IO.eprint Polyglot.helpText
    | e => IO.eprintln ("error: " ++ Polyglot.complaintText e)
    return e.exitCode.toUInt32
