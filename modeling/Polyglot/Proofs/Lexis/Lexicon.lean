import Polyglot.Proofs.Lexis.Shapes

/-!
# Vocabularies of shapes

A vocabulary all entries of which have a shape, and where blanks and possibly comments
stand between tokens, is given by a `Lexicon`. Cutting a source into tokens is said once
more for it, without programs (`Lexicon.tokenize`), and comes to the same
(`Lexicon.tokenize_vocabulary`). This is what the tokens of a printed source are found
out with, and it can be computed in proofs.
-/

namespace Polyglot

open Polyglot.Source
open Regex.Program Vocabulary

/-- A vocabulary all entries of which have a shape. -/
structure Lexicon where
  /-- The shapes of the entries. -/
  shapes : List Lexicon.Shape
  /-- Whether there are comments. -/
  comments : Bool
  deriving DecidableEq, Repr

namespace Text

theorem unescape_cons {c : Char} (ne : c ≠ '\\') (text : List Char) :
    unescape (c :: text) = (unescape text).map (c :: ·) := by
  rw [unescape]
  · rintro rfl _
    exact ne rfl
  · rintro _ _ rfl _
    exact ne rfl

/-- A text can be read again after it was escaped. -/
theorem unescape_escape (text : List Char) : unescape (escape text) = some text := by
  induction text with
  | nil => rfl
  | cons c text ih =>
    show unescape (escapeChar c ++ escape text) = _
    unfold escapeChar
    split
    case h_7 bar _ =>
      rw [List.singleton_append, unescape_cons bar, ih]
      rfl
    all_goals simp [unescape, escapeLetter?, ih]

theorem quote_injective {s t : String} (eq : quote s = quote t) : s = t := by
  have lists := String.ofList_injective eq
  rw [List.cons_append, List.cons_append, List.cons_inj_right] at lists
  have escaped := List.append_cancel_right lists
  refine String.toList_inj.1 (Option.some.inj ?_)
  rw [← unescape_escape, escaped, unescape_escape]

end Text

namespace Lexicon

/-- Whether a shape is that of exactly this text. -/
def Shape.isExactFor (s : Shape) (text : List Char) : Bool :=
  match s with
  | exact whole => whole.toList == text
  | _ => false

/-- The vocabulary. -/
def vocabulary (l : Lexicon) : Vocabulary where
  entries := l.shapes.map Shape.entry
  ignored := oneOrMore .blank :: if l.comments then [oneAndMore (.singleton '#') .anyInLine] else []

/-! ## Gaps -/

/-- The place after a stretch of characters. -/
def skip (place : Place) : Option Nat → Place
  | none => place
  | some length =>
    ⟨place.offset + length, place.position.advanceBy (place.rest.take length),
      place.rest.drop length⟩

/-- Skips blanks, and then a comment. -/
def skipRound (l : Lexicon) (place : Place) : Place :=
  let place := skip place (reachOf .blank .blank place.rest)
  if l.comments then skip place (reachOf (.singleton '#') .anyInLine place.rest) else place

/-- Skips blanks and comments. -/
def skipGap (l : Lexicon) : Nat → Place → Place
  | 0, place => place
  | fuel + 1, place =>
    let next := l.skipRound place
    if place.offset < next.offset then l.skipGap fuel next else next

theorem skipPattern_oneOrMore {set : CharSet} {place : Place} :
    skipPattern place (oneOrMore set) = skip place (reachOf set set place.rest) := by
  unfold skipPattern
  rw [find?_oneOrMore]
  cases reachOf set set place.rest with
  | none => rfl
  | some length => simp [skip]

theorem skipPattern_oneAndMore {first others : CharSet} {place : Place} :
    skipPattern place (oneAndMore first others) = skip place (reachOf first others place.rest) := by
  unfold skipPattern
  rw [find?_oneAndMore]
  cases reachOf first others place.rest with
  | none => rfl
  | some length => simp [skip]

theorem foldl_skipPattern (l : Lexicon) (place : Place) :
    l.vocabulary.ignored.foldl skipPattern place = l.skipRound place := by
  unfold vocabulary skipRound
  cases l.comments <;> simp [skipPattern_oneOrMore, skipPattern_oneAndMore]

theorem skipIgnored_vocabulary (l : Lexicon) (fuel : Nat) (place : Place) :
    l.vocabulary.skipIgnored fuel place = l.skipGap fuel place := by
  induction fuel generalizing place with
  | zero => rfl
  | succ fuel ih => simp only [skipIgnored, skipGap, foldl_skipPattern, ih]

/-! ## Matches -/

/-- The better of the best match so far and the match of the next shape. -/
def better (text : List Char) (best : Option (Shape × Nat)) (candidate : Shape × Nat) :
    Option (Shape × Nat) :=
  match best with
  | none => some candidate
  | some (shape, length) =>
    if length < candidate.2 then some candidate
    else if candidate.2 = length ∧ !shape.isExactFor (text.take length)
        ∧ candidate.1.isExactFor (text.take length) then
      some candidate
    else best

/-- The shape with the longest match at the front of a text, and its length. -/
def longest (l : Lexicon) (text : List Char) : Option (Shape × Nat) :=
  l.shapes.foldl
    (fun best shape =>
      match shape.reach? text with
      | none => best
      | some 0 => best
      | some length => better text best (shape, length))
    none

theorem isExactFor_entry (s : Shape) (text : List Char) :
    s.entry.isExactFor (String.ofList text) = s.isExactFor text := by
  have other {name : String} (ne : name.toList.head? ≠ some '"') :
      (name == Text.quote (String.ofList text)) = false := by
    refine beq_eq_false_iff_ne.2 fun eq => ne ?_
    rw [eq, Text.quote, String.toList_ofList]
    rfl
  cases s with
  | exact whole =>
    show (Text.quote whole == Text.quote (String.ofList text)) = (whole.toList == text)
    rw [Bool.eq_iff_iff, beq_iff_eq, beq_iff_eq]
    constructor
    · intro eq
      rw [Text.quote_injective eq, String.toList_ofList]
    · rintro rfl
      rw [String.ofList_toList]
  | identifier => exact other (by simp [Shape.entry])
  | integer => exact other (by simp [Shape.entry])
  | string => exact other (by simp [Shape.entry])
  | regex => exact other (by simp [Shape.entry])

/-- The entry of a shape with a length. -/
def entryOf (found : Shape × Nat) : Entry × Nat := (found.1.entry, found.2)

theorem betterMatch_entryOf (text : List Char) (best : Option (Shape × Nat))
    (candidate : Shape × Nat) :
    betterMatch text (best.map entryOf) (entryOf candidate)
      = (better text best candidate).map entryOf := by
  cases best with
  | none => rfl
  | some found =>
    simp only [betterMatch, better, Option.map_some, entryOf, isExactFor_entry, gt_iff_lt]
    split
    · rfl
    split <;> rfl

theorem longestMatch_vocabulary (l : Lexicon) (text : List Char) :
    l.vocabulary.longestMatch text = (l.longest text).map entryOf := by
  unfold Vocabulary.longestMatch longest vocabulary
  rw [List.foldl_map]
  have fold (shapes : List Shape) (best : Option (Shape × Nat)) :
      shapes.foldl (fun best shape =>
          match shape.entry.matchLength? text with
          | none => best
          | some 0 => best
          | some length => betterMatch text best (shape.entry, length)) (best.map entryOf)
        = (shapes.foldl (fun best shape =>
          match shape.reach? text with
          | none => best
          | some 0 => best
          | some length => better text best (shape, length)) best).map entryOf := by
    induction shapes generalizing best with
    | nil => rfl
    | cons shape shapes ih =>
      rw [List.foldl_cons, List.foldl_cons, ← ih, Shape.matchLength?_entry]
      congr 1
      split
      · rfl
      · rfl
      · exact betterMatch_entryOf text best (shape, _)
  exact fold l.shapes none

/-- The tokens from a place on. -/
def tokensFrom (l : Lexicon) : Nat → Place → Except LexError (List Token)
  | 0, _ => .ok []
  | fuel + 1, place =>
    let place := l.skipGap (fuel + 1) place
    match place.rest with
    | [] => .ok []
    | c :: _ =>
      match l.longest place.rest with
      | none => .error ⟨place.position, c⟩
      | some (shape, length) => do
        let text := place.rest.take length
        let rest ← l.tokensFrom fuel
          ⟨place.offset + length, place.position.advanceBy text, place.rest.drop length⟩
        return tokenOf shape.entry place.position text :: rest

/-- The tokens of a text. -/
def tokenize (l : Lexicon) (text : List Char) : Except LexError (List Token) :=
  l.tokensFrom (text.length + 1) ⟨0, .start, text⟩

theorem tokensFrom_vocabulary (l : Lexicon) (fuel : Nat) (place : Place) :
    l.vocabulary.tokensFrom fuel place = l.tokensFrom fuel place := by
  induction fuel generalizing place with
  | zero => rfl
  | succ fuel ih =>
    simp only [Vocabulary.tokensFrom, tokensFrom, skipIgnored_vocabulary, longestMatch_vocabulary]
    generalize l.skipGap (fuel + 1) place = place
    obtain ⟨offset, position, rest⟩ := place
    cases rest with
    | nil => rfl
    | cons c rest =>
      cases l.longest (c :: rest) with
      | none => rfl
      | some found => simp only [Option.map_some, entryOf, ih]

/-- **A source is cut into tokens** as its lexicon says. -/
theorem tokenize_vocabulary (l : Lexicon) (source : String) :
    l.vocabulary.tokenize source = l.tokenize source.toList :=
  l.tokensFrom_vocabulary _ _

end Lexicon

end Polyglot
