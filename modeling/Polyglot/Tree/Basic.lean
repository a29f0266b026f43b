import Polyglot.Lexis.Token

/-!
# Syntax trees

A syntax tree has tokens at its leaves. Every tree has a name – the rule that
produced it, or the type of its token – and may have a label, which says what
part it plays in the tree above.

There are two kinds of leaf. One is a token that a grammar asks for directly and
goes by the type of the token. The other is produced by a rule that is another
name for a terminal: it goes by the name of the rule and remembers the terminal.
There are two kinds of inner tree as well. One stands for one of the numbered
alternatives of a rule; the other just holds trees together.

Functions on trees are pairs of functions, one on a tree and one on a list of
trees, so that each of them is a recursion on the data.
-/

namespace Polyglot

open Polyglot.Source

/-- A syntax tree. -/
inductive Tree where
  /-- A token, and the terminal that the name is another name for, if it is. -/
  | leaf (name : String) (label : Option String) (terminal : Option String) (token : Token)
  /-- A list of trees, and the alternative that they stand for, if they do. -/
  | node (name : String) (label : Option String) (choice : Option Nat) (children : List Tree)
  deriving Repr, Inhabited

namespace Tree

/-- The leaf for a token that goes by its own type. -/
def ofToken (t : Token) : Tree := leaf t.type none none t

/-- The name of a tree. -/
def name : Tree → String
  | leaf name .. => name
  | node name .. => name

/-- The label of a tree. -/
def label : Tree → Option String
  | leaf _ label .. => label
  | node _ label .. => label

/-- The tree with another label, or with none. -/
def withLabel (label : Option String) : Tree → Tree
  | leaf name _ terminal token => leaf name label terminal token
  | node name _ choice children => node name label choice children

/-- The trees below. A leaf has none. -/
def children : Tree → List Tree
  | leaf .. => []
  | node _ _ _ children => children

/-- The tree with other trees below. A leaf stays as it is. -/
def withChildren (children : List Tree) : Tree → Tree
  | leaf name label terminal token => leaf name label terminal token
  | node name label choice _ => node name label choice children

/-- The tree below that is first to have a label. -/
def labeled? (t : Tree) (label : String) : Option Tree :=
  t.children.find? fun c => c.label == some label

/-- The token of a leaf. -/
def token? : Tree → Option Token
  | leaf _ _ _ token => some token
  | node .. => none

/-- The number of the alternative that an inner tree stands for. -/
def choice? : Tree → Option Nat
  | leaf .. => none
  | node _ _ choice _ => choice

/-- Whether the tree is a leaf. -/
def isLeaf (t : Tree) : Bool := t.token?.isSome

mutual

/-- The tokens of a tree from left to right, and then those in `rest`. -/
def tokensOnto (rest : List Token) : Tree → List Token
  | leaf _ _ _ token => token :: rest
  | node _ _ _ children => tokensOfListOnto rest children

/-- The tokens of a list of trees from left to right, and then those in `rest`. -/
def tokensOfListOnto (rest : List Token) : List Tree → List Token
  | [] => rest
  | t :: ts => tokensOnto (tokensOfListOnto rest ts) t

end

/-- The tokens of a tree from left to right. -/
def tokens (t : Tree) : List Token := tokensOnto [] t

/-- The tokens of a tree that have a text. -/
def solidTokens (t : Tree) : List Token :=
  t.tokens.filter fun token => !token.isEmpty

/-- The smallest span around the tokens that have a text, if there are any. -/
def span? (t : Tree) : Option Span :=
  match t.solidTokens with
  | [] => none
  | first :: rest => some (rest.foldl (fun s token => s.merge token.span) first.span)

/-- The smallest span around the tokens that have a text, or the start of the
source if there are none. -/
def span (t : Tree) : Span := t.span?.getD .start

/-- The texts of the tokens, with a space between any two. -/
def text (t : Tree) : String :=
  " ".intercalate (t.solidTokens.map (·.lexeme))

mutual

/-- Whether two trees are the same but for the places of their tokens. -/
def agrees : Tree → Tree → Bool
  | leaf name label terminal token, leaf name' label' terminal' token' =>
    name == name' && label == label' && terminal == terminal' && token.agrees token'
  | node name label choice children, node name' label' choice' children' =>
    name == name' && label == label' && choice == choice' && agreesOnList children children'
  | _, _ => false

/-- Whether two lists of trees are the same but for the places of their tokens. -/
def agreesOnList : List Tree → List Tree → Bool
  | [], [] => true
  | t :: ts, u :: us => t.agrees u && agreesOnList ts us
  | _, _ => false

end

/-- The label of a tree as it is written before the tree. -/
def labelText : Option String → String
  | none => ""
  | some label => label ++ "="

mutual

/-- The tree as nested brackets, for people. -/
def brackets : Tree → String
  | leaf _ label none token => labelText label ++ toString token
  | leaf name label (some _) token => labelText label ++ "<" ++ name ++ ">:" ++ toString token
  | node name label _ children =>
    labelText label ++ "(<" ++ name ++ ">" ++ bracketsOfList children ++ ")"

/-- A list of trees as nested brackets, with a space before each. -/
def bracketsOfList : List Tree → String
  | [] => ""
  | t :: ts => " " ++ t.brackets ++ bracketsOfList ts

end

mutual

/-- What comes after the tokens of a tree is just put behind them. -/
theorem tokensOnto_eq (t : Tree) (rest : List Token) : tokensOnto rest t = t.tokens ++ rest := by
  cases t with
  | leaf name label terminal token => simp [tokens, tokensOnto]
  | node name label choice children =>
    have h := tokensOfListOnto_eq children
    simp [tokens, tokensOnto, h rest, h []]

/-- What comes after the tokens of a list of trees is just put behind them. -/
theorem tokensOfListOnto_eq (ts : List Tree) (rest : List Token) :
    tokensOfListOnto rest ts = ts.flatMap tokens ++ rest := by
  cases ts with
  | nil => simp [tokensOfListOnto]
  | cons t ts =>
    simp [tokensOfListOnto, tokensOfListOnto_eq ts rest, tokensOnto_eq t (ts.flatMap tokens ++ rest)]

end

@[simp] theorem tokens_leaf (name : String) (label terminal : Option String) (token : Token) :
    (leaf name label terminal token).tokens = [token] := by simp [tokens, tokensOnto]

/-- The tokens of an inner tree are those of the trees below, one after the other. -/
@[simp] theorem tokens_node (name : String) (label : Option String) (choice : Option Nat)
    (children : List Tree) :
    (node name label choice children).tokens = children.flatMap tokens := by
  simp [tokens, tokensOnto, tokensOfListOnto_eq]

@[simp] theorem name_withLabel (label : Option String) (t : Tree) :
    (t.withLabel label).name = t.name := by cases t <;> rfl

@[simp] theorem label_withLabel (label : Option String) (t : Tree) :
    (t.withLabel label).label = label := by cases t <;> rfl

@[simp] theorem children_withLabel (label : Option String) (t : Tree) :
    (t.withLabel label).children = t.children := by cases t <;> rfl

@[simp] theorem tokens_withLabel (label : Option String) (t : Tree) :
    (t.withLabel label).tokens = t.tokens := by cases t <;> simp [withLabel]

end Tree

end Polyglot
