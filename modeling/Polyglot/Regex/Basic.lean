import Polyglot.Regex.CharSet

/-!
# Regular expressions

Regular expressions as data, and the functions that build them in simplified
form.

**Why the form matters.** Where several matches start at the same place, the
first in the order of preference counts. For most expressions that order can be
read off the expression, however it is written. It cannot where a repetition has
a body that may match the empty text: which rounds of it are given up depends on
the steps that the expression is made into (see `Polyglot.Regex.Program`), and
so on how the expression is put together. Therefore expressions are only built
by `concat`, `alternation`, `repetition` and `oneOf`, which fix one form:

* a row of factors is flat, has no empty factor, and texts next to each other
  are one text;
* alternatives that are single characters are one set, and so are alternatives
  that are sets;
* factors with which all alternatives begin are taken out in front of them;
* what can only match the empty text is repeated at most once.

A capturing group is kept, as a wall that none of these rules looks through.
What it captures is never asked for.
-/

namespace Polyglot

/-- A condition on a place in a text, which the characters on its two sides
decide. -/
inductive Look where
  /-- Nothing is before it. -/
  | start
  /-- Nothing is after it. -/
  | stop
  /-- A word character is on exactly one side. -/
  | wordBoundary
  /-- A word character is on both sides or on none. -/
  | noWordBoundary
  /-- A word character is after it and none before it. -/
  | wordStart
  /-- A word character is before it and none after it. -/
  | wordEnd
  /-- No word character is before it. -/
  | noWordBefore
  /-- No word character is after it. -/
  | noWordAfter
  deriving DecidableEq, Repr

/-- Whether the condition holds between two characters, either of which is
missing at an end of the text. -/
def Look.holds (kind : Look) (before after : Option Char) : Bool :=
  let left := before.any Text.isWord
  let right := after.any Text.isWord
  match kind with
  | start => before.isNone
  | stop => after.isNone
  | wordBoundary => left != right
  | noWordBoundary => left == right
  | wordStart => !left && right
  | wordEnd => left && !right
  | noWordBefore => !left
  | noWordAfter => !right

/-- A regular expression. -/
inductive Regex where
  /-- The empty text. -/
  | empty
  /-- The empty text, at a place where a condition holds. -/
  | look (kind : Look)
  /-- Exactly this text, which is not empty. -/
  | chars (cs : List Char)
  /-- One character of a set. -/
  | one (set : CharSet)
  /-- One expression and then another. -/
  | cat (first second : Regex)
  /-- One expression or, if that leads nowhere, another. -/
  | alt (left right : Regex)
  /-- An expression at least `low` times, and at most `high` times if that is a
  bound. A greedy repetition prefers another round, and a lazy one prefers to
  stop. -/
  | repeated (low : Nat) (high : Option Nat) (greedy : Bool) (body : Regex)
  /-- A capturing group. No two groups of an expression have the same place. -/
  | capture (place : Nat) (body : Regex)
  deriving DecidableEq, Repr

namespace Regex

/-- Whether an expression has a match only of the empty text. -/
def isSilent : Regex → Bool
  | empty => true
  | look _ => true
  | chars cs => cs.isEmpty
  | one _ => false
  | cat first second => first.isSilent && second.isSilent
  | alt left right => left.isSilent && right.isSilent
  | repeated _ _ _ body => body.isSilent
  | capture _ body => body.isSilent

/-- The number of characters that a match has at least, if there can be one. -/
def leastLength? : Regex → Option Nat
  | empty => some 0
  | look _ => some 0
  | chars cs => some cs.length
  | one s => if s.ranges.isEmpty then none else some 1
  | cat first second => do return (← first.leastLength?) + (← second.leastLength?)
  | alt left right => do return min (← left.leastLength?) (← right.leastLength?)
  | repeated low _ _ body => body.leastLength?.map (low * ·)
  | capture _ body => body.leastLength?

/-- Whether every match takes a character, and there can be one. -/
def takes (r : Regex) : Bool := r.leastLength?.any (0 < ·)

/-- Whether a match can only be at the start of the text, since that is the
first thing it looks for. -/
def isAnchored : Regex → Bool
  | look .start => true
  | cat first second => first.isAnchored || first.isSilent && second.isAnchored
  | alt left right => left.isAnchored && right.isAnchored
  | repeated low _ _ body => low != 0 && body.isAnchored
  | capture _ body => body.isAnchored
  | _ => false

/-- Whether a match can only be at the end of the text, since that is the last
thing it looks for. -/
def isAnchoredAtEnd : Regex → Bool
  | look .stop => true
  | cat first second => second.isAnchoredAtEnd || second.isSilent && first.isAnchoredAtEnd
  | alt left right => left.isAnchoredAtEnd && right.isAnchoredAtEnd
  | repeated low _ _ body => low != 0 && body.isAnchoredAtEnd
  | capture _ body => body.isAnchoredAtEnd
  | _ => false

/-- The expressions that an expression is a row of. -/
def factors : Regex → List Regex
  | empty => []
  | cat first second => first.factors ++ second.factors
  | r => [r]

/-- The expressions that an expression is a choice of. -/
def branches : Regex → List Regex
  | alt left right => left.branches ++ right.branches
  | r => [r]

/-- A row of expressions. -/
def row : List Regex → Regex
  | [] => empty
  | [r] => r
  | r :: rs => cat r (row rs)

/-- A choice of expressions. Of none there is none that matches. -/
def choice : List Regex → Regex
  | [] => one .empty
  | [r] => r
  | r :: rs => alt r (choice rs)

/-- One character of a set, in its simplest form. -/
def oneOf (s : CharSet) : Regex :=
  match s.single? with
  | some c => chars [c]
  | none => one s

/-- The set of the one character that an expression stands for by itself. -/
def charSet? : Regex → Option CharSet
  | chars [c] => some (.singleton c)
  | _ => none

/-- The set that an expression takes one character of. -/
def set? : Regex → Option CharSet
  | one s => some s
  | _ => none

/-- A row with the texts joined that are next to each other. -/
def joinTexts : List Regex → List Regex
  | [] => []
  | chars cs :: rest =>
    match joinTexts rest with
    | chars ds :: rest => chars (cs ++ ds) :: rest
    | rest => chars cs :: rest
  | r :: rest => r :: joinTexts rest

/-- One expression after the other. -/
def concat (rs : List Regex) : Regex :=
  row (joinTexts (rs.flatMap factors))

/-- A choice in which single characters are one set, and so are several sets,
however its alternatives begin. -/
def flatAlternation (rs : List Regex) : Regex :=
  let rs := rs.flatMap branches
  match rs.mapM charSet?, rs.mapM set? with
  | some sets, _ => oneOf (.unionOfList sets)
  | none, some sets => oneOf (.unionOfList sets)
  | none, none => choice rs

/-- How many expressions two rows have in common at the front. -/
def commonLength : List Regex → List Regex → Nat
  | r :: rs, s :: ss => if r = s then commonLength rs ss + 1 else 0
  | _, _ => 0

/-- The first of the alternatives that leads to a match. Factors that all of
them have in front are taken out, once each is a row of at least two. -/
def alternation (rs : List Regex) : Regex :=
  let rows := (rs.flatMap branches).map factors
  match rows with
  | [] => flatAlternation []
  | first :: others =>
    let common := others.foldl (fun n other => min n (commonLength first other)) first.length
    if others.isEmpty || common = 0 || rows.any (·.length < 2) then flatAlternation rs
    else
      concat (first.take common ++ [flatAlternation (rows.map fun r => concat (r.drop common))])

/-- An expression any number of times within bounds. A second round of what
matches only the empty text would add nothing, and a repetition of exactly one
round is its body. -/
def repetition (low : Nat) (high : Option Nat) (greedy : Bool) (body : Regex) : Regex :=
  let low := if body.isSilent then min low 1 else low
  let high := if body.isSilent then some (min (high.getD 1) 1) else high
  if high = some 0 then empty
  else if low = 1 ∧ high = some 1 then body
  else repeated low high greedy body

/-- The expression for exactly one text. -/
def literal (cs : List Char) : Regex :=
  if cs.isEmpty then empty else chars cs

end Regex

end Polyglot
