/-!
# Lines of a text

Two ways to cut a text at its line feeds. `splitLines` is the plain one: a text
with `n` line feeds has `n + 1` pieces, the last of which may be empty. `lines`
is the reader's view: a final line feed ends the last line and starts no other,
and a line that ends in a carriage return and a line feed loses both.
-/

namespace Polyglot.Text

/-- The pieces of a text between its line feeds. -/
def splitLines : List Char → List (List Char)
  | [] => [[]]
  | c :: cs =>
    if c = '\n' then [] :: splitLines cs
    else
      match splitLines cs with
      | [] => [[c]]
      | line :: rest => (c :: line) :: rest

/-- A text has at least one piece. -/
@[simp] theorem splitLines_ne_nil (cs : List Char) : splitLines cs ≠ [] := by
  cases cs with
  | nil => simp [splitLines]
  | cons c cs =>
    unfold splitLines
    split
    · simp
    · split <;> simp

/-- The line without the one carriage return it may end in. -/
def dropFinalReturn (line : List Char) : List Char :=
  if line.getLast? = some '\r' then line.dropLast else line

/-- The lines among the pieces of a text. Every piece but the last was ended by
a line feed; the last one counts only if there is something on it, and a
carriage return at its end was followed by no line feed and stays. -/
def endLines : List (List Char) → List (List Char)
  | [] => []
  | [last] => if last.isEmpty then [] else [last]
  | line :: rest => dropFinalReturn line :: endLines rest

/-- The lines of a text. -/
def lines (text : String) : List String :=
  (endLines (splitLines text.toList)).map String.ofList

end Polyglot.Text
