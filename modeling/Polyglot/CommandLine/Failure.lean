import Polyglot.Machine.Fault
import Polyglot.Synthesis.Graph

/-!
# Failures of commands

A command that fails says why as a chain of messages, from what it was about to do
down to what was in the way. If a language is behind it, there is a diagnostic
too, and if that is about the source the command was given, it shows the place.

Which of the errors of the languages are about the source is a matter of what is
done with sources: whatever is read or compiled is the source or was made of it
without a change to its meaning, but what is assembled is the source only if the
source is known to be in the assembly language.
-/

namespace Polyglot.CommandLine

open Polyglot.Source
open Polyglot.Text (Palette)
open Polyglot.Machine (Fault)

/-- Why a file cannot be used. -/
inductive FileError where
  /-- There is no such file. -/
  | missing
  /-- The file holds no text. -/
  | noText
  /-- The system has a reason of its own. -/
  | other (reason : String)
  deriving DecidableEq, Repr

/-- The wording of the error. -/
def FileError.message : FileError → String
  | missing => "No such file or directory (os error 2)"
  | noText => "stream did not contain valid UTF-8"
  | other reason => reason

/-- A source with where it comes from. -/
structure NamedSource where
  /-- The path of its file. -/
  path : String
  /-- Its text. -/
  text : String
  /-- The name of its language, if that is known without reading it. -/
  language : Option String
  deriving DecidableEq, Repr

/-- Why a command fails. -/
inductive Failure where
  /-- A file cannot be read. -/
  | unreadable (path : String) (reason : FileError)
  /-- A file cannot be written. -/
  | unwritable (path : String) (reason : FileError)
  /-- The language of a source is not known. -/
  | language (e : LanguageError)
  /-- No language reads a source. -/
  | unrecognized
  /-- A source cannot be printed. -/
  | format (e : LanguageError)
  /-- No artifact can be made of a source. -/
  | synthesis (e : SynthesisError)
  /-- An artifact is no program. -/
  | noProgram (e : ShapeError)
  /-- A file holds no program. -/
  | invalidProgram (fault : Fault)
  /-- The machine does not take a program. -/
  | unloadable (fault : Fault)
  /-- A program failed. -/
  | stopped (fault : Fault)

namespace Failure

/-- The failure and what caused it, as separate messages. -/
def chain : Failure → List String
  | unreadable path reason => [s!"Cannot read {path}", reason.message]
  | unwritable path reason => [s!"Cannot write {path}", reason.message]
  | language e => e.chain
  | unrecognized => SynthesisError.unreadable.chain
  | format e => e.chain
  | synthesis e => e.chain
  | noProgram e => [e.message]
  | invalidProgram fault => "Invalid program file" :: fault.chain
  | unloadable fault => "Cannot load the program" :: fault.chain
  | stopped fault => "The program failed" :: fault.chain

/-- The error of a language that is explained to the user. -/
def explained? : Failure → Option LanguageError
  | format e => some e
  | synthesis e => e.language?
  | _ => none

end Failure

/-- The lines for what caused something, given the message before them. A message
that is the same as the one before it is left out. -/
def causeLines (palette : Palette) : String → List String → List String
  | _, [] => []
  | last, message :: rest =>
    let line := "  " ++ palette.apply .bold "caused by:" ++ " " ++ message
    (if message = last then [] else [line]) ++ causeLines palette message rest

/-- A chain of messages as it is shown to the user. -/
def renderChain (palette : Palette) : List String → String
  | [] => ""
  | message :: rest =>
    let line := palette.apply .red "error:" ++ " " ++ message
    "\n".intercalate (line :: causeLines palette message rest)

/-- Whether an error is about a source. -/
def isAbout (source : NamedSource) : LanguageError → Bool
  | .read _ => true
  | .compile _ => true
  | .assembly _ => source.language == some "a"
  | _ => false

/-- The diagnostic for an error, with an excerpt if it is about the source. -/
def explain (source : NamedSource) (e : LanguageError) : Diagnostic :=
  let d := e.toDiagnostic
  let excerpt := if isAbout source e then
      d.span.bind fun span => (Excerpt.cut source.path source.text span).toOption
    else none
  { d with excerpt }

end Polyglot.CommandLine
