import Polyglot.Grammar.Basic
import Polyglot.Tree.Basic
import Std.Data.HashMap

/-!
# Parsing

A rule is parsed at a place among the tokens by trying all its alternatives from
there. The one that takes the most tokens counts, and of several the first. The
terms of an alternative are parsed one after the other, and a repetition takes as
many rounds as it can get; neither is ever tried again in another way.

A rule that is called at a place where it is being parsed already fails there.
So left recursion is no way to parse anything, but it does no harm.

Results are remembered, so that a rule is parsed only once at each place – with
one exception. While a rule is being parsed, calls of it at the same place fail,
and what failed for that reason might succeed elsewhere. So the result of a rule
is only remembered if no such call was made on the way to it.

The recursion goes down one level with every call of a rule. Calls that are open
at the same time are calls of different rules or at different places, so there
are never more levels than rules times places.
-/

namespace Polyglot

open Polyglot.Source

namespace Parser

/-- What is known about a rule at a place. -/
inductive Memo where
  /-- It is being parsed. -/
  | inProgress
  /-- It was parsed: the tree and how many tokens it takes, if it is there. -/
  | done (result : Option (Tree × Nat))
  deriving Repr

/-- The state of a parser. -/
structure State where
  /-- How many tokens come before the place where the parser is. -/
  position : Nat := 0
  /-- The furthest place where a token was looked at. -/
  furthest : Nat := 0
  /-- What is known, by rule and place. -/
  memo : Std.HashMap (Nat × Nat) Memo := {}
  /-- How often a rule was found to be in progress. -/
  hits : Nat := 0

/-- A step of a parser: what it gives, if it succeeds, and the state after it. -/
abbrev Step (α : Type) := State → Option α × State

/-- The token at a place. -/
def peek (tokens : Array Token) (s : State) : Option Token :=
  tokens[s.position]?

/-- Looks at the place where the parser is. -/
def look (s : State) : State :=
  { s with furthest := max s.furthest s.position }

/-- Takes the next token if it has the type. -/
def expect (tokens : Array Token) (type : String) : Step Token := fun s =>
  let s := look s
  match peek tokens s with
  | some t => if t.type == type then (some t, { s with position := s.position + 1 }) else (none, s)
  | none => (none, s)

/-- The parser at another place. -/
def moveTo (position : Nat) (s : State) : State :=
  { s with position }

/-- The position right after the last token. -/
def endPosition (tokens : Array Token) : Position :=
  match tokens.back? with
  | some t => .ofCoordinates t.span.last.line (t.span.last.column + 1)
  | none => .start

/-- The position of a place. -/
def positionAt (tokens : Array Token) (place : Nat) : Position :=
  match tokens[place]? with
  | some t => t.span.first
  | none => endPosition tokens

/-- Parses a terminal. The empty one takes nothing anywhere, the end of the
source takes nothing after the last token. -/
def terminal (tokens : Array Token) (name : String) : Step Token := fun s =>
  if name == emptyTerminal then
    (some (.empty emptyTerminal (positionAt tokens s.position)), s)
  else if name == endTerminal then
    let s := look s
    if s.position = tokens.size then (some (.empty endTerminal (endPosition tokens)), s)
    else (none, s)
  else expect tokens name s

/-- Parses a symbol, given how rules are parsed. -/
def symbol (tokens : Array Token) (rule : Nat → Step Tree) : Symbol → Step Tree
  | .rule id => rule id
  | .terminal name => fun s =>
    let (token, s) := terminal tokens name s
    (token.map Tree.ofToken, s)

/-- Parses rounds of a symbol after those in `items`, the last of which comes
first. A round that takes no token is the last one, and only counts if it is the
first of at least one. -/
def rounds (parse : Step Tree) (multiplicity : Multiplicity) :
    Nat → List Tree → State → List Tree × State
  | 0, items, s => (items, s)
  | fuel + 1, items, s =>
    let start := s.position
    match parse s with
    | (none, s) => (items, moveTo start s)
    | (some t, s) =>
      let progressed := start < s.position
      let items :=
        if progressed || (multiplicity == .plus && items.isEmpty) then t :: items else items
      if !progressed || multiplicity == .optional then (items, s)
      else rounds parse multiplicity fuel items s

/-- Parses a repetition. -/
def repeated (tokens : Array Token) (parse : Step Tree) (multiplicity : Multiplicity) :
    Step (List Tree) := fun s =>
  let (items, s) := rounds parse multiplicity (tokens.size + 1) [] s
  if multiplicity == .plus && items.isEmpty then (none, s) else (some items.reverse, s)

/-- Parses a term. What a repetition matches is put in a tree of its own. -/
def term (g : Grammar) (tokens : Array Token) (rule : Nat → Step Tree) (t : Term) : Step Tree :=
  fun s =>
    let parse := symbol tokens rule t.symbol
    let (tree, s) :=
      if t.multiplicity == .one then parse s
      else
        let (items, s) := repeated tokens parse t.multiplicity s
        (items.map fun items =>
          .node (g.symbolName t.symbol ++ t.multiplicity.suffix) none none items, s)
    (tree.map (Tree.withLabel t.label), s)

/-- Parses the terms of an alternative. -/
def sequence (g : Grammar) (tokens : Array Token) (rule : Nat → Step Tree) :
    List Term → Step (List Tree)
  | [], s => (some [], s)
  | t :: ts, s =>
    match term g tokens rule t s with
    | (none, s) => (none, s)
    | (some tree, s) =>
      match sequence g tokens rule ts s with
      | (none, s) => (none, s)
      | (some trees, s) => (some (tree :: trees), s)

/-- An alternative that was parsed. -/
structure Candidate where
  /-- The number of the alternative. -/
  index : Nat
  /-- The trees of its terms. -/
  children : List Tree
  /-- How many tokens it takes. -/
  consumed : Nat

/-- Tries alternatives from a place, the first of which has the number `index`,
and keeps the best with those before. -/
def longest (g : Grammar) (tokens : Array Token) (rule : Nat → Step Tree) (start : Nat) :
    Nat → List (List Term) → Option Candidate → State → Option Candidate × State
  | _, [], best, s => (best, s)
  | index, terms :: rest, best, s =>
    match sequence g tokens rule terms (moveTo start s) with
    | (none, s) => longest g tokens rule start (index + 1) rest best s
    | (some children, s) =>
      let consumed := s.position - start
      let better := match best with
        | none => true
        | some b => b.consumed < consumed
      longest g tokens rule start (index + 1) rest
        (if better then some ⟨index, children, consumed⟩ else best) s

/-- Parses the body of a rule, whatever is known about it. -/
def body (g : Grammar) (tokens : Array Token) (rule : Nat → Step Tree) (r : Rule) : Step Tree :=
  fun s =>
    match r.body with
    | .aliasOf name =>
      let (token, s) := terminal tokens name s
      (token.map fun t => .leaf r.name none (some name) t, s)
    | .choice alternatives =>
      let start := s.position
      match longest g tokens rule start 0 alternatives none s with
      | (none, s) => (none, s)
      | (some best, s) =>
        (some (.node r.name none (some best.index) best.children),
          moveTo (start + best.consumed) s)

/-- Puts down the result of a rule at a place, if it depends on no call that
failed for being in progress. -/
def remember (id start hits : Nat) (result : Option Tree) (s : State) : State :=
  let memo :=
    if s.hits = hits then
      s.memo.insert (id, start) (.done (result.map fun t => (t, s.position - start)))
    else s.memo.erase (id, start)
  { s with memo }

/-- Parses a rule, going down at most `depth` levels. -/
def rule (g : Grammar) (tokens : Array Token) : Nat → Nat → Step Tree
  | 0, _, s => (none, s)
  | depth + 1, id, s =>
    match s.memo[(id, s.position)]? with
    | some .inProgress => (none, { s with hits := s.hits + 1 })
    | some (.done none) => (none, s)
    | some (.done (some (t, consumed))) => (some t, moveTo (s.position + consumed) s)
    | none =>
      match g.rules[id]? with
      | none => (none, s)
      | some r =>
        let start := s.position
        let hits := s.hits
        let entered := { s with memo := s.memo.insert (id, start) .inProgress }
        let (result, s) := body g tokens (rule g tokens depth) r entered
        let s := if result.isNone then moveTo start s else s
        (result, remember id start hits result s)

/-- How many levels of calls there can be. -/
def depthBound (g : Grammar) (tokens : Array Token) : Nat :=
  g.rules.size * (tokens.size + 1) + 1

/-- Parses all tokens as one sentence, from any state of the parser. -/
def finish (g : Grammar) (tokens : Array Token) (s : State) : Except ParseError Tree :=
  let found (place : Nat) : Option String := tokens[place]?.map toString
  match rule g tokens (depthBound g tokens) g.entry s with
  | (none, s) => .error (.failed (positionAt tokens s.furthest) (found s.furthest))
  | (some t, s) =>
    if s.position < tokens.size then
      let place := max s.furthest s.position
      .error (.incomplete (positionAt tokens place) (found place))
    else .ok t

end Parser

namespace Grammar

/-- The tree of a sentence, given as tokens. -/
def parseTokens (g : Grammar) (tokens : List Token) : Except ParseError Tree :=
  Parser.finish g tokens.toArray {}

/-- The tree of a source. -/
def parse (g : Grammar) (source : String) : Except ReadError Tree := do
  let tokens ← g.tokenize source
  (g.parseTokens tokens).mapError .parse

end Grammar

end Polyglot
