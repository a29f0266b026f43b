import Polyglot.Language.Basic

/-!
# The language of patterns

Regular expressions over words: alternatives, sequences, signs of repetition,
the point and brackets. What stands for itself is an identifier, an integer or a
text in quotes. Signs of repetition stick to what they repeat.
-/

namespace Polyglot.Pattern

/-- The written form of the grammar. -/
def source : String := unlines [
  "<regex> ::= <alternation>;",
  "<alternation> ::= <concatenation> (\"|\" <concatenation>)*;",
  "<concatenation> ::= <repetition>+;",
  "<repetition> ::= <primary> <quantifier>?;",
  "<quantifier> ::= \"*\" | \"+\" | \"?\";",
  "<primary> ::= <literal> | <any> | \"(\" <alternation> \")\";",
  "<literal> ::= identifier | decimal_integer | escaped_string;",
  "alias <any> ::= \".\";"]

/-- The grammar. -/
def grammar : Except ReadError Grammar := Xbnf.load "regex" source

/-- No spaces inside brackets and before signs of repetition. -/
def layout : Layout where
  spaceBetween left right :=
    left.lexeme != "(" && !([")", "*", "+", "?"].contains right.lexeme)

/-- The language of patterns. -/
def language : Language where
  name := "regex"
  extensions := ["regex", "re"]
  grammar? := grammar
  print := layout.print

end Polyglot.Pattern
