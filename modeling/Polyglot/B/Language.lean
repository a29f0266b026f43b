import Polyglot.Language.Basic

/-!
# The language B

A small imperative language: functions, loops, decisions, memory access, and the
calls to the host as builtin functions. Sources are printed with a statement on
a line and blocks indented.
-/

namespace Polyglot.B

/-- The written form of the grammar. -/
def source : String := unlines [
  "<b> ::= <function>+;",
  "<function> ::= \"fn\" name=identifier \"(\" <parameters>? \")\" body=<statement>;",
  "<parameters> ::= identifier (\",\" identifier)*;",
  "<statement> ::= <block> | <while> | <if> | <return> | <assignment> | <store>",
  "              | <call_statement> | <empty>;",
  "<block> ::= \"\x7b\" <statement>* \"\x7d\";",
  "<while> ::= \"while\" \"(\" condition=<expression> \")\" body=<statement>;",
  "<if> ::= \"if\" \"(\" condition=<expression> \")\" then=<statement>",
  "         (\"else\" otherwise=<statement>)?;",
  "<return> ::= \"return\" value=<expression>? \";\";",
  "<assignment> ::= target=identifier \"=\" value=<expression> \";\";",
  "<store> ::= \"[\" address=<expression> \"]\" \"=\" value=<expression> \";\";",
  "<call_statement> ::= <call> \";\";",
  "<empty> ::= \";\";",
  "<expression> ::= <conjunction> (\"|\" <conjunction>)*;",
  "<conjunction> ::= <equality> (\"&\" <equality>)*;",
  "<equality> ::= <comparison> ((\"==\" | \"!=\") <comparison>)*;",
  "<comparison> ::= <sum> ((\"<\" | \"<=\" | \">\" | \">=\") <sum>)*;",
  "<sum> ::= <product> ((\"+\" | \"-\") <product>)*;",
  "<product> ::= <unary> ((\"*\" | \"/\" | \"%\") <unary>)*;",
  "<unary> ::= (\"!\" | \"-\") <unary> | <primary>;",
  "<primary> ::= <call> | <load> | <variable> | <integer> | <string>",
  "            | \"(\" <expression> \")\";",
  "<call> ::= name=identifier \"(\" <arguments>? \")\";",
  "<arguments> ::= <expression> (\",\" <expression>)*;",
  "<load> ::= \"[\" address=<expression> \"]\";",
  "alias <variable> ::= identifier;",
  "alias <integer> ::= decimal_integer;",
  "alias <string> ::= escaped_string;"]

/-- The grammar. -/
def grammar : Except ReadError Grammar := Xbnf.load "b" source

/-- A statement on a line, blocks indented, and calls without a space before
their bracket. -/
def layout : Layout where
  spaceBetween left right :=
    if right.lexeme == "(" && left.type == "identifier" then false
    else !(["(", "[", "!"].contains left.lexeme) && !([")", "]", ",", ";"].contains right.lexeme)
  newlineAfter t := ["\x7b", ";", "\x7d"].contains t.lexeme
  indentAfter t := t.lexeme == "\x7b"
  dedentBefore t := t.lexeme == "\x7d"

/-- The language B. -/
def language : Language where
  name := "b"
  extensions := ["b"]
  grammar? := grammar
  shaker := { splice := ["statement", "primary"] }
  print := layout.print

end Polyglot.B
