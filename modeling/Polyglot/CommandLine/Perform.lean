import Polyglot.CommandLine.Failure
import Polyglot.CommandLine.Options
import Polyglot.Machine.State
import Polyglot.Synthesis.Languages

/-!
# Performing commands

What a command does is a function from what it is given – the content of its file,
the input and the environment – to an outcome: what it prints, what it complains
about, the exit status, and the file that is to be written. Reading and writing
are left to the caller.

The output of a program that fails is part of the outcome, for it was printed
before the program failed.
-/

namespace Polyglot.CommandLine

open Polyglot.Text (Palette)
open Polyglot.Machine (Program Config State)

/-- What a command comes to. -/
structure Outcome where
  /-- The exit status. -/
  status : UInt8 := 0
  /-- What is printed. -/
  output : List UInt8 := []
  /-- What is complained about. -/
  complaints : String := ""
  /-- The file to write, with its content. -/
  written : Option (String × List UInt8) := none
  deriving DecidableEq, Repr

/-- The extension of program files. -/
def programExtension : String := "mp0"

/-- The bytes of a text. -/
def bytesOf (text : String) : List UInt8 := text.toUTF8.data.toList

/-- The text that bytes hold. -/
def textOf? (bytes : List UInt8) : Option String := String.fromUTF8? ⟨bytes.toArray⟩

/-! ## Running -/

/-- Runs a program; gives the exit code or why there is none, and the output. -/
def runProgram (program : Program) (config : Config) (input : List UInt8) :
    Except Failure Int32 × List UInt8 :=
  match State.load config program input with
  | .error fault => (.error (.unloadable fault), [])
  | .ok machine =>
    match machine.run with
    | (machine, some (.ok code)) => (.ok code, machine.output.toList)
    | (machine, some (.error fault)) => (.error (.stopped fault), machine.output.toList)
    | (machine, none) => (.error (.stopped (.stepLimit machine.steps)), machine.output.toList)

/-- Makes a program of a source and runs it. -/
def runSource (source : String) (language : Option String) (config : Config)
    (input : List UInt8) : Except Failure Int32 × List UInt8 :=
  match Graph.ofLanguages.synthesizeSource programKind source language [] with
  | .error e => (.error (.synthesis e), [])
  | .ok artifact =>
    match artifact.asProgram with
    | .error e => (.error (.noProgram e), [])
    | .ok program => runProgram program config input

/-! ## Sources -/

/-- The source in a file. -/
def loadSource (o : SourceOptions) (content : Except FileError (List UInt8)) :
    Except Failure NamedSource := do
  let bytes ← content.mapError (.unreadable o.file)
  match textOf? bytes with
  | none => throw (.unreadable o.file .noText)
  | some text =>
    return ⟨o.file, text, o.language <|> (Language.ofPath? o.file).map (·.name)⟩

/-- The language of a source. -/
def NamedSource.resolve (source : NamedSource) : Except Failure Language :=
  match source.language with
  | some name =>
    match Language.ofName? name with
    | some l => .ok l
    | none => .error (.language (.unknownLanguage name))
  | none =>
    match Language.guess? source.text with
    | some l => .ok l
    | none => .error .unrecognized

/-! ## Outcomes -/

namespace Outcome

/-- The outcome of printing a line. -/
def ofLine (text : String) : Outcome := { output := bytesOf (text ++ "\n") }

/-- The outcome of a failure, which may be about a source. -/
def ofFailure (palette : Palette) (source : Option NamedSource) (f : Failure) : Outcome :=
  let explanation := match source, f.explained? with
    | some s, some e => (explain s e).render palette
    | _, _ => ""
  { status := 1, complaints := explanation ++ renderChain palette f.chain ++ "\n" }

/-- The outcome of a run, of which the system gets the low byte of the exit code. -/
def ofRun (palette : Palette) (source : Option NamedSource) :
    Except Failure Int32 × List UInt8 → Outcome
  | (.ok code, output) => { status := UInt8.ofNat (code.toInt % 256).toNat, output }
  | (.error f, output) => { ofFailure palette source f with output }

/-- The outcome of an artifact that goes to a file or is printed. A program file is
binary. -/
def ofArtifact (a : Artifact) : Option String → Outcome
  | none => .ofLine a.render
  | some path =>
    { written := some (path, match a with
        | .program p => p.toBytes
        | other => bytesOf other.render) }

/-- The outcome when the file cannot be written after all. -/
def unwritten (palette : Palette) (o : Outcome) (reason : FileError) : Outcome :=
  match o.written with
  | some (path, _) => .ofFailure palette none (.unwritable path reason)
  | none => o

end Outcome

/-! ## Commands -/

/-- The lines that list the languages and the edges of the graph. -/
def kindsText : String :=
  let row (l : Language) : String :=
    l.name ++ Text.spaces (6 - l.name.length) ++ " ." ++ " .".intercalate l.extensions
  unlines (Language.all.map row ++ [""] ++ Graph.ofLanguages.edges.map toString)

namespace Command

/-- The file that a command reads. -/
def file? : Command → Option String
  | run source _ => some source.file
  | synth source _ => some source.file
  | format source => some source.file
  | kinds => none

/-- Runs what is in a file. -/
def performRun (palette : Palette) (source : SourceOptions) (config : Config)
    (content : Except FileError (List UInt8)) (input : List UInt8) : Outcome :=
  if extension? source.file == some programExtension then
    match content with
    | .error reason => .ofFailure palette none (.unreadable source.file reason)
    | .ok bytes =>
      match Program.ofBytes bytes with
      | .error fault => .ofFailure palette none (.invalidProgram fault)
      | .ok program => .ofRun palette none (runProgram program config input)
  else
    match loadSource source content with
    | .error f => .ofFailure palette none f
    | .ok s => .ofRun palette (some s) (runSource s.text s.language config input)

/-- Makes an artifact of the source in a file. -/
def performSynth (palette : Palette) (source : SourceOptions) (o : SynthesisOptions)
    (content : Except FileError (List UInt8)) : Outcome :=
  match loadSource source content with
  | .error f => .ofFailure palette none f
  | .ok s =>
    match Graph.ofLanguages.synthesizeSource o.target s.text s.language o.via with
    | .error e => .ofFailure palette (some s) (.synthesis e)
    | .ok artifact => .ofArtifact artifact o.output

/-- Prints the source in a file. -/
def performFormat (palette : Palette) (source : SourceOptions)
    (content : Except FileError (List UInt8)) : Outcome :=
  match loadSource source content with
  | .error f => .ofFailure palette none f
  | .ok s =>
    match s.resolve with
    | .error f => .ofFailure palette none f
    | .ok l =>
      match l.format s.text with
      | .error e => .ofFailure palette (some s) (.format (.read e))
      | .ok text => .ofLine text

/-- What a command comes to, given the content of its file, the input and the
environment. -/
def perform (palette : Palette) (env : List (String × String))
    (content : Except FileError (List UInt8)) (input : List UInt8) : Command → Outcome
  | run source machine => performRun palette source (machine.config env) content input
  | synth source o => performSynth palette source o content
  | format source => performFormat palette source content
  | kinds => { output := bytesOf kindsText }

end Command

end Polyglot.CommandLine
