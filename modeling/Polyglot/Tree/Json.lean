import Polyglot.Text.Json
import Polyglot.Tree.Basic

/-!
# Trees as structured documents

The full content of a tree as a document: names, labels, kinds, values and
places. A label that is not there is left out, a value that is not there is
written as nothing.
-/

namespace Polyglot

open Polyglot.Source
open Polyglot.Text (Json)

namespace Source

/-- A position as a document. -/
def Position.toJson (p : Position) : Json :=
  .object [("line", .number p.line), ("column", .number p.column)]

/-- A span as a document. -/
def Span.toJson (s : Span) : Json :=
  .object [("start", s.first.toJson), ("end", s.last.toJson)]

end Source

/-- A value as a document. -/
def Literal.toJson : Literal → Json
  | .int n => .object [("Int", .number n)]
  | .str s => .object [("Str", .text s)]

/-- A token as a document. -/
def Token.toJson (t : Token) : Json :=
  .object [("ty", .text t.type), ("lexeme", .text t.lexeme),
    ("literal", (t.literal.map Literal.toJson).getD .null), ("range", t.span.toJson)]

namespace Tree

/-- The fields that every tree starts with. -/
def headFields (name : String) (label : Option String) (kind : String) : List (String × Json) :=
  ("ty", .text name) :: (label.toList.map fun l => ("label", .text l)) ++ [("kind", .text kind)]

mutual

/-- A tree as a document. -/
def toJson : Tree → Json
  | leaf name label none token =>
    .object (headFields name label "terminal" ++ [("token", token.toJson)])
  | leaf name label (some terminal) token =>
    .object (headFields name label "alias"
      ++ [("terminal", .text terminal), ("token", token.toJson)])
  | node name label none children =>
    .object (headFields name label "nonterminal" ++ [("children", .list (toJsonList children))])
  | node name label (some choice) children =>
    .object (headFields name label "choice"
      ++ [("choice", .number choice), ("children", .list (toJsonList children))])

/-- Trees as documents. -/
def toJsonList : List Tree → List Json
  | [] => []
  | t :: ts => t.toJson :: toJsonList ts

end

end Tree

end Polyglot
