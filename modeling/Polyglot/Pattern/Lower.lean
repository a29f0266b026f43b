import Polyglot.Pattern.Language
import Polyglot.Regex.Program
import Polyglot.Regex.Reader

/-!
# From patterns to regular expressions

A tree of a pattern is lowered to the written form of a regular expression, which
is then read. What stands for itself is escaped, the signs are kept, and brackets
become groups. A sign of repetition binds to one character, so a literal of
several characters that is repeated is put in a group.

The written form may be no regular expression: a text without characters leaves
a sign of repetition with nothing to repeat.
-/

namespace Polyglot.Pattern

/-- The text that an atom stands for: the content of quotes, or the atom itself. -/
def atomText (t : Token) : String := t.str?.getD t.lexeme

/-- Whether a tree is a token with exactly this text. -/
def isSign (t : Tree) (text : String) : Bool :=
  t.token?.any (·.lexeme == text)

/-- Whether a tree has a literal of more than one character at the front. -/
def isLongLiteral (t : Tree) : Bool :=
  match t.children.head? with
  | some c =>
    c.name == "literal" &&
      ((c.children.head?.bind Tree.token?).any fun token => (atomText token).length > 1)
  | none => false

/-- The written form of a leaf. -/
def lowerLeaf (name : String) (token : Token) : String :=
  if name == "any" then "."
  else if name == "repetition" then ""
  else if ["\"|\"", "\"*\"", "\"+\"", "\"?\""].contains name then token.lexeme
  else Regex.escape (atomText token)

/-- The parts of a repetition put together. -/
def joinRepetition (long : Bool) : List String → String
  | [] => ""
  | [atom] => atom
  | atom :: signs => if long then "(?:" ++ atom ++ ")" ++ String.join signs
    else atom ++ String.join signs

/-- The parts of other trees put together: in a group if they are in brackets, or else in a row. -/
def joinGroup : List Tree → List String → String
  | [left, _, right], [first, inner, last] =>
    if isSign left "(" && isSign right ")" then "(?:" ++ inner ++ ")" else first ++ inner ++ last
  | _, parts => String.join parts

mutual

/-- The written form of the regular expression for a tree. -/
def lower : Tree → String
  | .leaf name _ _ token => lowerLeaf name token
  | .node name _ _ children =>
    if name == "any" then "."
    else if name == "repetition" then
      joinRepetition (children.head?.any isLongLiteral) (lowerList children)
    else joinGroup children (lowerList children)

/-- The written forms of trees. -/
def lowerList : List Tree → List String
  | [] => []
  | t :: ts => lower t :: lowerList ts

end

/-- The program that matches a text as a whole if the pattern does. -/
def matcher? (t : Tree) : Except Regex.SyntaxError Regex.Program :=
  (Regex.parse ("^(?:".toList ++ (lower t).toList ++ ")$".toList)).map Regex.program

end Polyglot.Pattern
