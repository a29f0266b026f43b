import Polyglot.Source.Position

/-!
# Tokens

A token is a stretch of source text with a type, which is the name of the entry
of the vocabulary that recognized it, and possibly a value.

Two tokens *agree* if they have the same type, text and value. Where they stand
does not matter, so that sources that are laid out differently can be compared.
Equality proper compares the place as well.
-/

namespace Polyglot

open Polyglot.Source

/-- The value of a token. -/
inductive Literal where
  /-- An integer of at most 64 bits. -/
  | int (value : Int)
  /-- A text. -/
  | str (value : String)
  deriving DecidableEq, Repr

/-- A stretch of source text with a type. -/
structure Token where
  /-- The name of the entry of the vocabulary that recognized it. -/
  type : String
  /-- The text. -/
  lexeme : String
  /-- The value, if the entry gives one. -/
  literal : Option Literal := none
  /-- Where the text stands. -/
  span : Span := .start
  deriving DecidableEq, Repr, Inhabited

namespace Token

/-- The token without a text at a position. -/
def empty (type : String) (p : Position) : Token :=
  { type, lexeme := "", span := .ofPosition p }

/-- Whether the token has no text. -/
def isEmpty (t : Token) : Bool := t.lexeme.isEmpty

/-- The value of the token, if that is an integer. -/
def int? (t : Token) : Option Int :=
  match t.literal with
  | some (.int n) => some n
  | _ => none

/-- The value of the token, if that is a text. -/
def str? (t : Token) : Option String :=
  match t.literal with
  | some (.str s) => some s
  | _ => none

/-- Whether two tokens are the same but for their place. -/
def agrees (t u : Token) : Bool :=
  t.type == u.type && t.lexeme == u.lexeme && t.literal == u.literal

/-- A token is shown as its type and its text. -/
instance : ToString Token where
  toString t := t.type ++ "('" ++ t.lexeme ++ "')"

@[simp] theorem agrees_refl (t : Token) : t.agrees t = true := by simp [agrees]

end Token

end Polyglot
