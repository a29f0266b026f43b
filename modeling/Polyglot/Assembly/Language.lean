import Polyglot.Language.Basic

/-!
# The assembly language

The language of the machine: a section of texts and a section of labels and
instructions. Sources are printed with one of them on a line. Everything but the
names of the sections and the labels is indented.

A section is printed item by item. What the grammar made up, and the trees that
just say that something is a line, are looked through on the way to the items,
so that raw trees and shaken ones are printed by the same rule.
-/

namespace Polyglot.Assembly

/-- The written form of the grammar. -/
def source : String := unlines [
  "ignore /#[^\\n]*/;",
  "<a> ::= <data>? <code>;",
  "<data> ::= \".data\" <constant>*;",
  "<code> ::= \".code\" <line>*;",
  "<line> ::= <label> | <instruction>;",
  "<label> ::= name=identifier \":\";",
  "<instruction> ::= op=<op1> <operand>",
  "                | op=<op2> <operand> <operand>",
  "                | op=<op3> <operand> <operand> <operand>;",
  "<op1> ::= \"jump\" | \"jumpv\" | \"sys\" | \"sysv\" | \"exit\" | \"exitv\";",
  "<op2> ::= \"not\" | \"set\" | \"setv\" | \"jumpif\" | \"jumpifv\";",
  "<op3> ::= \"load\" | \"store\" | \"storev\"",
  "        | \"add\" | \"sub\" | \"mul\" | \"div\" | \"mod\" | \"or\" | \"and\" | \"xor\"",
  "        | \"eq\" | \"neq\" | \"gt\" | \"geq\" | \"lt\" | \"leq\" | \"ls\" | \"rs\"",
  "        | \"addv\" | \"subv\" | \"mulv\" | \"divv\" | \"modv\" | \"orv\" | \"andv\" | \"xorv\"",
  "        | \"eqv\" | \"neqv\" | \"gtv\" | \"geqv\" | \"ltv\" | \"leqv\" | \"lsv\" | \"rsv\";",
  "<operand> ::= <name> | <integer> | <constant_ref>;",
  "<integer> ::= \"-\"? decimal_integer;",
  "<constant_ref> ::= \"=\" decimal_integer;",
  "alias <constant> ::= escaped_string;",
  "alias <name> ::= identifier;"]

/-- The grammar. -/
def grammar : Except ReadError Grammar := Xbnf.load "a" source

/-- No spaces after signs and before the colon of a label. -/
def layout : Layout where
  spaceBetween left right :=
    !(["-", "="].contains left.lexeme) && right.lexeme != ":"

/-- Whether a tree of a section is looked through. -/
def isWrapper (name : String) : Bool :=
  name == "line" || isGenerated name

mutual

/-- The items that a tree of a section stands for. -/
def itemsOf : Tree → List Tree
  | .leaf name label terminal token =>
    if isWrapper name then [] else [.leaf name label terminal token]
  | .node name label choice children =>
    if isWrapper name then items children else [.node name label choice children]

/-- The items of a section, given the trees below it. -/
def items : List Tree → List Tree
  | [] => []
  | t :: ts => itemsOf t ++ items ts

end

/-- The lines of a section. -/
def sectionLines (t : Tree) : List String :=
  match items t.children with
  | [] => []
  | header :: rest =>
    header.text :: rest.map fun item =>
      let text := layout.print item
      if item.name == "label" then text else layout.indentUnit ++ text

/-- A tree as a source. -/
def print (t : Tree) : String :=
  "\n".intercalate (t.children.flatMap sectionLines)

/-- The assembly language. -/
def language : Language where
  name := "a"
  extensions := ["a", "asm"]
  grammar? := grammar
  shaker := { splice := ["line"] }
  print := print

end Polyglot.Assembly
