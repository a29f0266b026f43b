import Polyglot.Text.Numeral
import Polyglot.Text.Padding

/-!
# Structured documents

Documents of numbers, texts, lists and fields, and how they are printed for
people to read: every item on a line of its own, two spaces deeper than what it
is in, and the fields in the order they were given. An empty list or an object
without fields is printed as a pair of brackets on one line.
-/

namespace Polyglot.Text

/-- A structured document. -/
inductive Json where
  /-- Nothing. -/
  | null
  /-- A whole number. -/
  | number (value : Int)
  /-- A text. -/
  | text (value : String)
  /-- A list. -/
  | list (items : List Json)
  /-- Named fields in order. -/
  | object (fields : List (String × Json))
  deriving Repr, Inhabited

namespace Json

/-- One character inside quotes. -/
def escapeChar (c : Char) : List Char :=
  match c with
  | '"' => ['\\', '"']
  | '\\' => ['\\', '\\']
  | '\n' => ['\\', 'n']
  | '\r' => ['\\', 'r']
  | '\t' => ['\\', 't']
  | '\x08' => ['\\', 'b']
  | '\x0c' => ['\\', 'f']
  | c => if c.toNat < 0x20 then ['\\', 'u'] ++ hexOnto 4 c.toNat [] else [c]

/-- A text in quotes. -/
def quoted (s : String) : String :=
  String.ofList ('"' :: s.toList.flatMap escapeChar ++ ['"'])

/-- Printed items between two brackets, each on a line of its own. -/
def block (left right : String) (depth : Nat) (items : List String) : String :=
  if items.isEmpty then left ++ right
  else
    let margin := "\n" ++ spaces (2 * (depth + 1))
    left ++ margin ++ ("," ++ margin).intercalate items ++ "\n" ++ spaces (2 * depth) ++ right

mutual

/-- A document as it is printed at a depth. -/
def prettyAt (depth : Nat) : Json → String
  | null => "null"
  | number n => toString n
  | text s => quoted s
  | list items => block "[" "]" depth (prettyItems (depth + 1) items)
  | object fields => block "\x7b" "\x7d" depth (prettyFields (depth + 1) fields)

/-- The items of a list as they are printed at a depth. -/
def prettyItems (depth : Nat) : List Json → List String
  | [] => []
  | item :: items => item.prettyAt depth :: prettyItems depth items

/-- The fields of an object as they are printed at a depth. -/
def prettyFields (depth : Nat) : List (String × Json) → List String
  | [] => []
  | (name, value) :: fields =>
    (quoted name ++ ": " ++ value.prettyAt depth) :: prettyFields depth fields

end

/-- A document as it is printed. -/
def pretty (j : Json) : String := j.prettyAt 0

end Json

end Polyglot.Text
