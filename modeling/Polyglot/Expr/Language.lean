import Polyglot.Language.Basic

/-!
# The language of expressions

Arithmetic on integers and variables: sums, products, the minus sign and
brackets. Sources are printed on as few lines as they fit.
-/

namespace Polyglot.Expr

/-- The written form of the grammar. -/
def source : String := unlines [
  "<expr> ::= <sum>;",
  "<sum> ::= <product> ((\"+\" | \"-\") <product>)*;",
  "<product> ::= <unary> ((\"*\" | \"/\" | \"%\") <unary>)*;",
  "<unary> ::= \"-\" <unary> | <primary>;",
  "<primary> ::= <number> | <variable> | \"(\" <sum> \")\";",
  "alias <number> ::= decimal_integer;",
  "alias <variable> ::= identifier;"]

/-- The grammar. -/
def grammar : Except ReadError Grammar := Xbnf.load "expr" source

/-- The language of expressions. -/
def language : Language where
  name := "expr"
  extensions := ["expr"]
  grammar? := grammar
  shaker := { splice := ["primary"] }

end Polyglot.Expr
