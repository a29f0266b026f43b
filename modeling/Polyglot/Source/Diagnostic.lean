import Polyglot.Source.Excerpt
import Polyglot.Text.Padding

/-!
# Diagnostics

A diagnostic is what a user is told about a source: a level, a message, and
optionally the span it is about, a note, a help text and an excerpt. It is
printed as a block whose first word is the level; the labels of the note and of
the help are pushed to the right so that their colons stand under the colon of
the level, and the further lines of a note and the lines of an excerpt are
indented to match.
-/

namespace Polyglot.Source

open Polyglot.Text

/-- How serious a diagnostic is. -/
inductive Level where
  /-- Something to look at. -/
  | warning
  /-- Something that stopped the work. -/
  | error
  deriving DecidableEq, Repr

namespace Level

/-- The word that a diagnostic of this level starts with. -/
def name : Level → String
  | .warning => "Warning"
  | .error => "Error"

/-- The style of that word and of the carets under an excerpt. -/
def style : Level → Style
  | .warning => .brightYellow
  | .error => .brightRed

end Level

/-- A message to the user. -/
structure Diagnostic where
  /-- How serious it is. -/
  level : Level
  /-- What happened. -/
  message : String
  /-- More about it, on as many lines as it takes. -/
  note : Option String := none
  /-- What to do about it. -/
  help : Option String := none
  /-- The stretch of source it is about. -/
  span : Option Span := none
  /-- The line of source it is about. -/
  excerpt : Option Excerpt := none
  deriving DecidableEq, Repr

namespace Diagnostic

/-- An error with a message and nothing else. -/
def error (message : String) : Diagnostic := { level := .error, message }

/-- A warning with a message and nothing else. -/
def warning (message : String) : Diagnostic := { level := .warning, message }

/-- The lines of a note. The first stands beside the label and the others under
it; a note without lines leaves the label alone, with no line end after it. -/
def renderNote (palette : Palette) (width : Nat) (note : String) : String :=
  palette.apply .bold (padLeft width "Note") ++ ": "
    ++ match lines note with
      | [] => ""
      | first :: rest =>
        first ++ "\n" ++ String.join (rest.map fun line => spaces (width + 2) ++ line ++ "\n")

/-- The diagnostic as it is shown to the user. -/
def render (palette : Palette) (d : Diagnostic) : String :=
  let width := d.level.name.length
  let span := match d.span with
    | none => ""
    | some s => toString s ++ ": "
  let note := match d.note with
    | none => ""
    | some n => renderNote palette width n
  let help := match d.help with
    | none => ""
    | some h => palette.apply .bold (padLeft width "Help") ++ ": " ++ h ++ "\n"
  let excerpt := match d.excerpt with
    | none => ""
    | some e =>
      String.join <| (lines (e.render palette d.level.style)).map fun line =>
        spaces (width + 2) ++ line ++ "\n"
  palette.apply d.level.style d.level.name ++ ": " ++ span ++ d.message ++ "\n"
    ++ note ++ help ++ excerpt

end Diagnostic

/-- The diagnostics of one piece of work, in the order they were made. -/
abbrev Report := List Diagnostic

namespace Report

/-- The diagnostics that are only warnings. -/
def warnings (r : Report) : List Diagnostic :=
  r.filter (·.level == .warning)

/-- Whether the work was stopped by an error. -/
def hasErrors (r : Report) : Bool :=
  r.any (·.level == .error)

end Report

end Polyglot.Source
