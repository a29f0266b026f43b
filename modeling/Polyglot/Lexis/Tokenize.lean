import Polyglot.Lexis.Vocabulary

/-!
# Cutting a source into tokens

At every place what stands between tokens is skipped first: the patterns to
ignore are tried in turn, again and again, until a round of all of them skips
nothing. Then every entry of the vocabulary is tried, and the longest match
becomes a token. Of several longest matches the one of the entry for exactly
that text is taken, so that a keyword is no identifier, and else the one that
was declared first. A match of nothing does not count.

The text that an ignored pattern skips is as long as its match ends, while the
position moves on by the text of the match itself. For a pattern that matches
at the front the two are the same.

The recursion is on an allowance that a text uses up by one for every token, so
its length is enough; the wrapper `tokenize` supplies it. Every round of skipping
but the last moves on as well, so what is left of the allowance is enough for
those too.
-/

namespace Polyglot

open Polyglot.Source

/-- Why a source cannot be cut into tokens: no entry matches the character at a
position. -/
structure LexError where
  /-- The position. -/
  position : Position
  /-- The character there. -/
  character : Char
  deriving DecidableEq, Repr

/-- The wording of the failure. -/
def LexError.message (e : LexError) : String :=
  s!"{e.position}: invalid character {Text.showChar e.character}"

namespace Vocabulary

/-- A place in a source. -/
structure Place where
  /-- How many characters come before it. -/
  offset : Nat
  /-- The position. -/
  position : Position
  /-- The text from there on. -/
  rest : List Char

/-- Skips one match of one pattern. -/
def skipPattern (place : Place) (pattern : Regex.Program) : Place :=
  match pattern.find? place.rest with
  | none => place
  | some (first, last) =>
    ⟨place.offset + last, place.position.advanceBy ((place.rest.take last).drop first),
      place.rest.drop last⟩

/-- Skips rounds of all patterns until one skips nothing. -/
def skipIgnored (v : Vocabulary) : Nat → Place → Place
  | 0, place => place
  | fuel + 1, place =>
    let next := v.ignored.foldl skipPattern place
    if place.offset < next.offset then v.skipIgnored fuel next else next

/-- The better of the best match so far and the match of the next entry. -/
def betterMatch (text : List Char) (best : Option (Entry × Nat)) (candidate : Entry × Nat) :
    Option (Entry × Nat) :=
  match best with
  | none => some candidate
  | some (entry, length) =>
    let lexeme := String.ofList (text.take length)
    if candidate.2 > length then some candidate
    else if candidate.2 = length ∧ !entry.isExactFor lexeme ∧ candidate.1.isExactFor lexeme then
      some candidate
    else best

/-- The entry with the longest match at the front of a text, and its length. -/
def longestMatch (v : Vocabulary) (text : List Char) : Option (Entry × Nat) :=
  v.entries.foldl
    (fun best entry =>
      match entry.matchLength? text with
      | none => best
      | some 0 => best
      | some length => betterMatch text best (entry, length))
    none

/-- The token of an entry for a text that starts at a position. -/
def tokenOf (entry : Entry) (p : Position) (text : List Char) : Token :=
  let lexeme := String.ofList text
  { type := entry.name
    lexeme
    literal := entry.rule.value? lexeme
    span := .between p (p.advanceBy text.dropLast) }

/-- The tokens from a place on. -/
def tokensFrom (v : Vocabulary) : Nat → Place → Except LexError (List Token)
  | 0, _ => .ok []
  | fuel + 1, place =>
    let place := v.skipIgnored (fuel + 1) place
    match place.rest with
    | [] => .ok []
    | c :: _ =>
      match v.longestMatch place.rest with
      | none => .error ⟨place.position, c⟩
      | some (entry, length) => do
        let text := place.rest.take length
        let rest ← v.tokensFrom fuel
          ⟨place.offset + length, place.position.advanceBy text, place.rest.drop length⟩
        return tokenOf entry place.position text :: rest

/-- The tokens of a source. -/
def tokenize (v : Vocabulary) (source : String) : Except LexError (List Token) :=
  let text := source.toList
  v.tokensFrom (text.length + 1) ⟨0, .start, text⟩

end Vocabulary

end Polyglot
