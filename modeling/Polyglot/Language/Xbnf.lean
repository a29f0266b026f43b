import Polyglot.Language.Basic

/-!
# The language of written grammars

The notation for grammars is one of the languages, read by the grammar that its
own written form defines. Its sources are printed with a declaration on a line.
-/

namespace Polyglot.Xbnf

/-- The written form of the grammar. -/
def source : String := unlines [
  "ignore /#[^\\n]*/;",
  "<xbnf> ::= <declaration>*;",
  "<declaration> ::= <rule> | <alias_rule> | <ignore_rule>;",
  "<rule> ::= <nonterminal> \"::=\" <body> \";\";",
  "<alias_rule> ::= \"alias\" <nonterminal> \"::=\" <terminal> \";\";",
  "<ignore_rule> ::= \"ignore\" regex \";\";",
  "<body> ::= <expression> (\"|\" <expression>)*;",
  "<expression> ::= <term>+;",
  "<term> ::= (identifier \"=\")? <atom> <multiplicity>?;",
  "<atom> ::= <nonterminal> | <terminal> | \"(\" <body> \")\";",
  "<terminal> ::= escaped_string | identifier | \"$\";",
  "<nonterminal> ::= \"<\" identifier \">\";",
  "<multiplicity> ::= \"?\" | \"*\" | \"+\";"]

/-- The grammar. -/
def grammar : Except ReadError Grammar := load name source

/-- A declaration on a line; names in angle brackets, labels and signs without
spaces inside. -/
def layout : Layout where
  spaceBetween left right :=
    !(["(", "<", "="].contains left.lexeme)
      && !([")", ">", ";", "=", "?", "*", "+"].contains right.lexeme)
  newlineAfter t := t.lexeme == ";"

/-- The language of written grammars. -/
def language : Language where
  name := name
  extensions := ["xbnf"]
  grammar? := grammar
  print := layout.print

end Polyglot.Xbnf
