import Polyglot.Tree.Basic

/-!
# Laying out trees

A tree is printed as its tokens, with spaces, line ends and indentation between
them as a layout says. The layout looks at tokens, not at trees: it knows the
two tokens that a space would stand between, and the token that a line would
start or end with.

A line is broken where a space would stand and the next token would not fit. So
a line is longer than the width only if there is no space in it to break at.
Tokens without a text are not printed and have no influence.
-/

namespace Polyglot

/-- Where spaces, line ends and indentation go. -/
structure Layout where
  /-- Whether a space stands between two tokens on one line. -/
  spaceBetween : Token → Token → Bool := fun left right =>
    !(["(", "["].contains left.lexeme) && !([")", "]", ",", ";", ":"].contains right.lexeme)
  /-- Whether a token starts a line. -/
  newlineBefore : Token → Bool := fun _ => false
  /-- Whether a token ends a line. -/
  newlineAfter : Token → Bool := fun _ => false
  /-- Whether the lines after a token are indented by one more step. -/
  indentAfter : Token → Bool := fun _ => false
  /-- Whether a token and the lines after it are indented by one step less. -/
  dedentBefore : Token → Bool := fun _ => false
  /-- One step of indentation. -/
  indentUnit : String := "    "
  /-- How many characters fit on a line. -/
  width : Nat := 80

namespace Layout

/-- What is printed so far, and where that has led to. -/
structure Pen where
  /-- What is printed so far. -/
  output : String := ""
  /-- How many characters are on the current line. -/
  column : Nat := 0
  /-- How many steps new lines are indented by. -/
  indent : Nat := 0
  /-- Whether the last token ended its line. -/
  lineEnded : Bool := false
  /-- The last token. -/
  last : Option Token := none

/-- Starts a line. -/
def Pen.newline (pen : Pen) : Pen :=
  { pen with output := pen.output.push '\n', column := 0 }

/-- Prints what stands between the last token and the next one. -/
def separate (l : Layout) (pen : Pen) (token : Token) : Pen :=
  match pen.last with
  | none => pen
  | some last =>
    if pen.lineEnded || l.newlineBefore token then pen.newline
    else if l.spaceBetween last token then
      if pen.column + 1 + token.lexeme.length > l.width then pen.newline
      else { pen with output := pen.output.push ' ', column := pen.column + 1 }
    else pen

/-- Prints the indentation at the start of a line. -/
def indentLine (l : Layout) (pen : Pen) : Pen :=
  if pen.column = 0 then
    { pen with
      output := pen.output ++ String.join (List.replicate pen.indent l.indentUnit)
      column := pen.indent * l.indentUnit.length }
  else pen

/-- Prints a token. -/
def push (l : Layout) (pen : Pen) (token : Token) : Pen :=
  if token.isEmpty then pen
  else
    let pen := if l.dedentBefore token then { pen with indent := pen.indent - 1 } else pen
    let pen := l.indentLine (l.separate pen token)
    { output := pen.output ++ token.lexeme
      column := pen.column + token.lexeme.length
      indent := if l.indentAfter token then pen.indent + 1 else pen.indent
      lineEnded := l.newlineAfter token
      last := some token }

/-- Prints tokens. -/
def printTokens (l : Layout) (tokens : List Token) : String :=
  (tokens.foldl l.push {}).output

/-- Prints a tree. -/
def print (l : Layout) (t : Tree) : String :=
  l.printTokens t.tokens

end Layout

end Polyglot
