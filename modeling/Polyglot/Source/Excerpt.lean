import Polyglot.Source.Position
import Polyglot.Text.Lines
import Polyglot.Text.Padding
import Polyglot.Text.Style

/-!
# Excerpts

An excerpt is one line of a source file with a stretch of it underlined. It is
cut out of the file by a span. A span over several lines is clipped to the
first of them, so that there is always one line to show.

A span may also point one column past the end of its line: that is where the
end of the input is, and the stretch is empty there. Anything further right, or
below the last line, is not in the file, and cutting fails.
-/

namespace Polyglot.Source

open Polyglot.Text

/-- A line of a file and a stretch of it. -/
structure Excerpt where
  /-- The name of the file, as it is to be shown. -/
  file : String
  /-- The number of the line, counted from one. -/
  lineNumber : Nat
  /-- The column of the first character of the stretch, counted from one. -/
  column : Nat
  /-- How many characters the stretch has. -/
  length : Nat
  /-- The line, without what ends it. -/
  line : String
  deriving DecidableEq, Repr

/-- Why a span cannot be cut out of a file. -/
inductive ExcerptError where
  /-- The span starts at line zero, which no file has. -/
  | noLine
  /-- The span starts below the last line. -/
  | afterFile
  /-- The span starts to the right of the end of its line. -/
  | afterLine (line : Nat)
  deriving DecidableEq, Repr

/-- The wording of a failed cut. -/
def ExcerptError.message : ExcerptError → String
  | .noLine => "Lines start from 1"
  | .afterFile => "The range starts after the end of the file"
  | .afterLine line => s!"The range starts after the end of line {line}"

namespace Excerpt

/-- The line without the carriage returns at its end. -/
def dropReturns (line : List Char) : List Char :=
  (line.reverse.dropWhile (· == '\r')).reverse

/-- The stretch of a file that a span covers on its first line. -/
def cut (file : String) (content : String) (span : Span) : Except ExcerptError Excerpt :=
  if span.first.line = 0 then .error .noLine
  else
    match (splitLines content.toList)[span.first.line - 1]? with
    | none => .error .afterFile
    | some raw =>
      let line := dropReturns raw
      let width := line.length
      if span.first.column > width + 1 then .error (.afterLine span.first.line)
      else
        let last := if span.last.line = span.first.line then min span.last.column width else width
        .ok {
          file
          lineNumber := span.first.line
          column := span.first.column
          length := last + 1 - span.first.column
          line := String.ofList line }

/-- The stretch itself. -/
def text (e : Excerpt) : String :=
  String.ofList ((e.line.toList.drop (e.column - 1)).take e.length)

/-- The excerpt on three lines: where it is, the line, and carets in the style
`style` under the stretch. An empty stretch has one caret. -/
def render (palette : Palette) (style : Style) (e : Excerpt) : String :=
  let number := toString e.lineNumber
  let margin := number.length + 3 + e.column - 1
  s!"{e.file}:{number}:{e.column}\n{number} | {e.line}\n"
    ++ spaces margin
    ++ String.join (List.replicate (max e.length 1) (palette.apply style "^"))
    ++ "\n"

end Excerpt

end Polyglot.Source
