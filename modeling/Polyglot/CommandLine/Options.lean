import Polyglot.CommandLine.Arguments
import Polyglot.Machine.Config

/-!
# The commands

There are four commands: to run a source, to make something else of it, to print
it in its canonical layout, and to list what there is. The arguments are those of
the program, then the command, and then those of the command. The word `help` in
the place of a command asks for help.
-/

namespace Polyglot.CommandLine

/-- Which source to take. -/
structure SourceOptions where
  /-- The path of the file. -/
  file : String
  /-- The name of the language, if it is given. -/
  language : Option String := none
  deriving DecidableEq, Repr

/-- What the command line says about the machine. -/
structure MachineOptions where
  /-- The size of the memory in bytes. -/
  memorySize : Option Nat := none
  /-- The size of the stack region in bytes. -/
  stackSize : Option Nat := none
  /-- After how many instructions to stop. -/
  maxSteps : Option Nat := none
  deriving DecidableEq, Repr

/-- The configuration that an environment asks for, with what the command line says
in the place of it. -/
def MachineOptions.config (o : MachineOptions) (env : List (String × String)) :
    Machine.Config :=
  let config := Machine.Config.ofEnvironment env
  { memorySize := o.memorySize.getD config.memorySize
    stackSize := o.stackSize.getD config.stackSize
    maxSteps := o.maxSteps <|> config.maxSteps }

/-- What to make of a source. -/
structure SynthesisOptions where
  /-- The kind of artifact. -/
  target : String
  /-- The kinds on the way. -/
  via : List String := []
  /-- The file to write the artifact to, or none to print it. -/
  output : Option String := none
  deriving DecidableEq, Repr

/-- A command. -/
inductive Command where
  /-- Run a source, or a program file. -/
  | run (source : SourceOptions) (machine : MachineOptions)
  /-- Make an artifact of a source. -/
  | synth (source : SourceOptions) (synthesis : SynthesisOptions)
  /-- Print a source in the canonical layout. -/
  | format (source : SourceOptions)
  /-- List the languages and the kinds of artifacts. -/
  | kinds
  deriving DecidableEq, Repr

/-- What the arguments say. -/
structure Options where
  /-- How much to tell about the work. -/
  verbosity : Nat
  /-- What to do. -/
  command : Command
  deriving DecidableEq, Repr

/-! ## Forms -/

/-- The option that counts how much to tell. -/
def verboseOption : Parameter := ⟨"verbose", some 'v', .count⟩

/-- The option that asks for help. -/
def helpOption : Parameter := ⟨"help", some 'h', .help⟩

/-- The option that asks for the version. -/
def versionOption : Parameter := ⟨"version", some 'V', .version⟩

/-- What the arguments before the command may be. -/
def programForm : Form where
  options := [verboseOption, helpOption, versionOption]

/-- What the arguments of a command with a source may be, besides its own options. -/
def sourceForm (options : List Parameter) (required : List String) : Form where
  options := [verboseOption, helpOption, ⟨"lang", none, .set .text⟩] ++ options
  operand := some ⟨"file", none, .set .path⟩
  required := "file" :: required

/-- What the arguments of `run` may be. -/
def runForm : Form :=
  sourceForm [⟨"mem-size", none, .set .number⟩, ⟨"stack-size", none, .set .number⟩,
    ⟨"max-steps", none, .set .number⟩] []

/-- What the arguments of `synth` may be. -/
def synthForm : Form :=
  sourceForm [⟨"to", none, .set .text⟩, ⟨"via", none, .append .text⟩,
    ⟨"output", some 'o', .set .path⟩] ["to"]

/-- What the arguments of `format` may be. -/
def formatForm : Form := sourceForm [] []

/-- What the arguments of `kinds` may be. -/
def kindsForm : Form where
  options := [verboseOption, helpOption]

/-! ## Commands from arguments -/

namespace Reading

/-- The source that arguments name. -/
def source (r : Reading) : SourceOptions :=
  ⟨(r.get? "file").getD "", r.get? "lang"⟩

/-- The machine that arguments ask for. -/
def machine (r : Reading) : MachineOptions :=
  ⟨r.number? "mem-size", r.number? "stack-size", r.number? "max-steps"⟩

/-- The artifact that arguments ask for. -/
def synthesis (r : Reading) : SynthesisOptions :=
  ⟨(r.get? "to").getD "", r.all "via", r.get? "output"⟩

end Reading

/-- The form of a command and how the command is made of the arguments. -/
def commandForms : List (String × Form × (Reading → Command)) :=
  [("run", runForm, fun r => .run r.source r.machine),
   ("synth", synthForm, fun r => .synth r.source r.synthesis),
   ("format", formatForm, fun r => .format r.source),
   ("kinds", kindsForm, fun _ => .kinds)]

/-- The word that asks for help. -/
def helpWord : String := "help"

/-- What becomes of a request for help about something. -/
def helpAbout : List String → UsageError
  | [] => .helpRequest
  | [topic] =>
    if topic == helpWord || (commandForms.lookup topic).isSome then .helpRequest
    else .unknownCommand topic
  | _ :: topic :: _ => .unknownCommand topic

namespace Options

/-- What the arguments of a command say, after those before it. The count that
comes with the command is the one that counts. -/
def ofCommand (before : Reading) (form : Form) (make : Reading → Command)
    (arguments : List String) : Except UsageError Options := do
  let r ← Reading.ofArguments form arguments
  return ⟨if r.count = 0 then before.count else r.count, make r⟩

/-- What arguments say, after some that come before the command. -/
def parseFrom (r : Reading) : List String → Except UsageError Options
  | [] => .error (if r.count = 0 then .nothingAsked else .missingCommand)
  | argument :: rest =>
    match commandForms.lookup argument, r.operandsOnly with
    | some (form, make), false => ofCommand r form make rest
    | some _, true => .error (.unknownArgument argument)
    | none, onlyOperands =>
      if argument == helpWord then
        .error (if onlyOperands then .unknownArgument argument else helpAbout rest)
      else if onlyOperands || !argument.startsWith "-" || argument == "-" then
        .error (.unknownCommand argument)
      else do parseFrom (← r.next programForm argument) rest

/-- What the arguments of the program say. -/
def parse (arguments : List String) : Except UsageError Options :=
  parseFrom {} arguments

end Options

end Polyglot.CommandLine
