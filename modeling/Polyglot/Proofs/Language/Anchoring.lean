import Polyglot.Proofs.Language.Grammars
import Polyglot.Proofs.Lexis.Accounting
import Polyglot.Proofs.Lexis.Declaring
import Polyglot.Proofs.Regex.Bracketed
import Polyglot.Proofs.Regex.Ends

/-!
# Where patterns match

The patterns of a vocabulary are put in a group behind the sign for the start, and this is done to
their text. What the text means then is what is tried, and it is found at the front of a text only
if it is one that matches at the front wherever it matches (`Regex.frontOnly_program_iff`).

A pattern that can be read by itself is still itself in the group (`Regex.parse_pasted`), and so it
is found at the front only. Others are accepted as well. In one with a bracket that closes the group,
an alternative that is written after the bracket has no sign for the start before it, and is found
anywhere (`anchoredPattern_escapes`).

The vocabulary of a grammar that is read has entries of the shapes that there are, and patterns of
its own only for what stands between tokens. So cutting a source depends on these alone
(`anchoredPattern_anchors`).
-/

namespace Polyglot

namespace Regex

/-- Whether an expression that matches somewhere in a text matches at its front. -/
def MatchesInFront (r : Regex) : Prop :=
  ∀ before middle after, r.Matches before middle after →
    ∃ taken rest, before ++ (middle ++ after) = taken ++ rest ∧ r.Matches [] taken rest

/-- **A program matches at the front only** just if its expression matches at the front of every
text that it matches somewhere in. -/
theorem frontOnly_program_iff (r : Regex) : r.program.FrontOnly ↔ r.MatchesInFront := by
  constructor
  · intro front before middle after holds
    have isMatch := (isMatch_program_iff r _).2 ⟨before, middle, after, rfl, holds⟩
    obtain ⟨⟨first, last⟩, found⟩ := Option.isSome_iff_exists.1 isMatch
    obtain ⟨before', taken, rest, eq, first_eq, -, holds, -⟩ := find?_program found
    rw [front _ _ _ found] at first_eq
    obtain rfl := List.eq_nil_of_length_eq_zero first_eq.symm
    exact ⟨taken, rest, eq, holds⟩
  · intro front text first last found
    obtain ⟨before, middle, after, rfl, rfl, -, holds, least⟩ := find?_program found
    obtain ⟨taken, rest, eq, holds⟩ := front before middle after holds
    exact Nat.le_zero.1 (least [] taken rest eq holds)

/-- The expression that a pattern that can be read by itself is tried as. -/
theorem matches_behind_start {q : Regex} {before text after : List Char} :
    (concat [look .start, q.moved]).Matches before text after
      ↔ before = [] ∧ q.Matches [] text after := by
  rw [matches_concat, List.map_cons, List.map_cons, List.map_nil, matches_moved, inRow_pair]
  constructor
  · rintro ⟨first, rest, rfl, ⟨rfl, start⟩, holds⟩
    obtain rfl : before = [] := List.getLast?_eq_none_iff.1 (Option.isNone_iff_eq_none.1 start)
    exact ⟨rfl, holds⟩
  · rintro ⟨rfl, holds⟩
    exact ⟨[], text, rfl, ⟨rfl, rfl⟩, holds⟩

theorem matchesInFront_of_nil {r : Regex}
    (front : ∀ {before middle after}, r.Matches before middle after → before = []) : r.MatchesInFront := by
  intro before middle after holds
  obtain rfl := front holds
  exact ⟨middle, after, rfl, holds⟩

end Regex

/-! ## Lengths of matches -/

namespace Entry

/-- Whether an entry looks for an expression: it has a match just where the expression matches
somewhere, and the length that it reports is that of the text up to the end of such a match. -/
structure Reports (e : Entry) (r : Regex) : Prop where
  /-- There is a match if the expression has one. -/
  found : ∀ text, (e.matchBytes? text).isSome
    ↔ ∃ before middle after, text.toList = before ++ (middle ++ after) ∧ r.Matches before middle after
  /-- What is before the match counts as well, and is nothing if the expression matches in front. -/
  length : ∀ text n, e.matchBytes? text = some n →
    ∃ before middle after, text.toList = before ++ (middle ++ after)
      ∧ n = (String.ofList (before ++ middle)).utf8ByteSize ∧ r.Matches before middle after
      ∧ (r.MatchesInFront → before = [])

theorem reports_program {e : Entry} {r : Regex} (same : e.matcher = r.program) : e.Reports r where
  found text := by
    rw [← Regex.isMatch_program_iff, matchBytes?, matchLength?, same, Option.isSome_map, Option.isSome_map]
    rfl
  length text n found := by
    obtain ⟨last, length, rfl⟩ := Option.map_eq_some_iff.1 found
    obtain ⟨⟨first, last⟩, ends, rfl⟩ := Option.map_eq_some_iff.1 length
    rw [same] at ends
    obtain ⟨before, middle, after, eq, rfl, rfl, holds, -⟩ := Regex.find?_program ends
    refine ⟨before, middle, after, eq, ?_, holds, fun front => ?_⟩
    · rw [eq, ← List.append_assoc, ← List.length_append, List.take_left]
    · exact List.eq_nil_of_length_eq_zero ((Regex.frontOnly_program_iff r).2 front _ _ _ ends)

end Entry

/-! ## Grammars that are read -/

namespace Vocabulary

/-- Whether the entries of a vocabulary have shapes, and what it ignores are patterns. -/
structure IsDeclared (v : Vocabulary) : Prop where
  /-- Every entry has a shape. -/
  shaped : v.IsShaped
  /-- What is ignored is a pattern that is accepted. -/
  ignored : ∀ p ∈ v.ignored, ∃ pattern, anchoredPattern pattern = .ok p

variable {v v' : Vocabulary}

theorem isDeclared_blank : blank.IsDeclared where
  shaped := ⟨[], rfl⟩
  ignored _ mem := ⟨"\\s+", Except.toOption_eq_some.1 (Option.mem_toList.1 mem)⟩

/-- An item that is added keeps a vocabulary declared. -/
theorem IsDeclared.addItem? (declared : v.IsDeclared) {i : Item} (added : v.addItem? i = some v') :
    v'.IsDeclared := by
  have cases' := addItem?_cases declared.shaped i
  split at cases'
  · obtain ⟨_, same, grows⟩ := cases'
    obtain rfl := Option.some.inj (added.symm.trans same)
    refine ⟨grows.shaped, fun p mem => ?_⟩
    rw [grows.ignored, List.mem_append] at mem
    rcases mem with mem | mem
    · exact declared.ignored p mem
    · cases i with
      | ignored pattern => exact ⟨pattern, Except.toOption_eq_some.1 (Option.mem_toList.1 mem)⟩
      | _ => cases mem
  · rw [added] at cases'
    cases cases'

/-- The entries of a vocabulary with shapes match at the front only. -/
theorem IsShaped.frontOnly (shaped : v.IsShaped) : ∀ e ∈ v.entries, e.matcher.FrontOnly := by
  obtain ⟨shapes, eq⟩ := shaped
  rw [eq]
  exact List.forall_mem_map.2 fun s _ => s.frontOnly_entry

end Vocabulary

namespace Xbnf

open Vocabulary (Item)

variable {v v' : Vocabulary}

theorem isDeclared_takeTerminal (declared : v.IsDeclared) {t : Tree}
    (taken : takeTerminal v t = .ok v') : v'.IsDeclared := by
  unfold takeTerminal at taken
  split at taken
  · split at taken
    · rename_i text _
      obtain rfl := Except.ok.inj taken
      exact declared.addItem? (i := .exact text) rfl
    · cases taken
  · rename_i token _ _
    obtain rfl := Except.ok.inj taken
    cases added : v.addBuiltin? token.lexeme with
    | none => exact declared
    | some v' => exact declared.addItem? (i := .builtin token.lexeme) added
  · obtain rfl := Except.ok.inj taken
    exact declared

theorem isDeclared_takeIgnored (declared : v.IsDeclared) {t : Tree}
    (taken : takeIgnored v t = .ok v') : v'.IsDeclared := by
  unfold takeIgnored at taken
  split at taken
  · rename_i pattern _
    exact declared.addItem? (i := .ignored pattern)
      (Except.toOption_eq_some.2 (Except.mapError_eq_ok.1 taken))
  · cases taken

mutual

/-- **What a written grammar asks for** is declared. -/
theorem isDeclared_takeVocabulary {v v' : Vocabulary} (declared : v.IsDeclared) {t : Tree}
    (taken : takeVocabulary v t = .ok v') : v'.IsDeclared := by
  cases t with
  | leaf =>
    rw [takeVocabulary] at taken
    obtain rfl := Except.ok.inj taken
    exact declared
  | node name label choice children =>
    rw [takeVocabulary] at taken
    split at taken
    · exact isDeclared_takeTerminal declared taken
    split at taken
    · exact isDeclared_takeIgnored declared taken
    · exact isDeclared_takeVocabularies declared taken

theorem isDeclared_takeVocabularies {v v' : Vocabulary} (declared : v.IsDeclared) {ts : List Tree}
    (taken : takeVocabularies v ts = .ok v') : v'.IsDeclared := by
  cases ts with
  | nil =>
    obtain rfl := Except.ok.inj taken
    exact declared
  | cons t ts =>
    obtain ⟨v₁, first, others⟩ := Except.bind_eq_ok.1 taken
    exact isDeclared_takeVocabularies (isDeclared_takeVocabulary declared first) others

end

theorem isDeclared_of_load {name source : String} {g : Grammar} (loaded : load name source = .ok g) :
    g.vocabulary.IsDeclared := by
  obtain ⟨tree, -, built⟩ := Except.bind_eq_ok.1 loaded
  obtain ⟨v, taken, built⟩ := Except.bind_eq_ok.1 (Except.mapError_eq_ok.1 built)
  obtain ⟨ds, -, built⟩ := Except.bind_eq_ok.1 built
  rw [Grammar.vocabulary_of_build built]
  exact isDeclared_takeVocabulary Vocabulary.isDeclared_blank taken

end Xbnf

/-! ## Patterns -/

/-- **Where patterns match.** A pattern that is accepted is tried as the expression that its text in
the group is read as, and is found at the front only just if that expression is one that matches
in front. It is one if the pattern can be read by itself, and then it matches what the pattern
does at the front. In a grammar that is read entries match at the front only, and what stands between
tokens are patterns that are accepted; if they match at the front only too, every character of a
source is accounted for. -/
theorem anchoredPattern_anchors {pattern name source : String} {p : Regex.Program} {g : Grammar}
    (accepted : anchoredPattern pattern = .ok p) (loaded : Xbnf.load name source = .ok g) :
    (∃ r, Regex.parse ("\\A(?:".toList ++ pattern.toList ++ [')']) = .ok r
      ∧ (p.FrontOnly ↔ r.MatchesInFront)
      ∧ (∀ e : Entry, e.matcher = p → e.Reports r)
      ∧ ∀ q, Regex.parse pattern.toList = .ok q → r.MatchesInFront
        ∧ ∀ before middle after, r.Matches before middle after ↔ before = [] ∧ q.Matches [] middle after)
    ∧ (∀ e ∈ g.vocabulary.entries, e.matcher.FrontOnly)
    ∧ (∀ p ∈ g.vocabulary.ignored, ∃ pattern, anchoredPattern pattern = .ok p)
    ∧ ((∀ p ∈ g.vocabulary.ignored, p.FrontOnly) →
      ∀ text, g.vocabulary.Accounts [] text.toList (g.vocabulary.tokenize text)) := by
  constructor
  · obtain ⟨r, read, rfl⟩ := Except.map_eq_ok.1 accepted
    refine ⟨r, read, Regex.frontOnly_program_iff r, fun _ => Entry.reports_program, ?_⟩
    intro q alone
    obtain rfl := Regex.parse_pasted alone read
    exact ⟨Regex.matchesInFront_of_nil fun holds => (Regex.matches_behind_start.1 holds).1,
      fun _ _ _ => Regex.matches_behind_start⟩
  · have declared := Xbnf.isDeclared_of_load loaded
    refine ⟨declared.shaped.frontOnly, declared.ignored, fun front text => ?_⟩
    exact Vocabulary.accounts_tokensFrom ⟨declared.shaped.frontOnly, front⟩ [] (Nat.lt_succ_self _)

/-- A pattern that is a choice, and the grammar of written grammars, which ignores comments. -/
theorem anchoredPattern_anchors_choice : ∃ p g, anchoredPattern "a|b" = .ok p ∧ Xbnf.grammar = .ok g
    ∧ p.FrontOnly ∧ ∀ text, g.vocabulary.Accounts [] text.toList (g.vocabulary.tokenize text) := by
  have isAccepted : (anchoredPattern "a|b").toOption.isSome := by decide +kernel
  have isRead : (Regex.parse "a|b".toList).toOption.isSome := by decide +kernel
  obtain ⟨p, accepted⟩ := Option.isSome_iff_exists.1 isAccepted
  obtain ⟨q, alone⟩ := Option.isSome_iff_exists.1 isRead
  rw [Except.toOption_eq_some] at accepted alone
  obtain ⟨g, loaded, same⟩ := Xbnf.grammar_eq
  obtain ⟨⟨r, -, front, -, behind⟩, -, -, accounts⟩ := anchoredPattern_anchors accepted loaded
  refine ⟨p, g, accepted, loaded, front.2 (behind q alone).1, accounts ?_⟩
  rw [same]
  exact (Lexicon.frontOnly_vocabulary Xbnf.writtenLexicon).ignored

/-- The first token of a row comes after a gap. -/
theorem Vocabulary.Cut.exists_gap {v : Vocabulary} {rest before text : List Char} {t : Token}
    {tokens : List Token} (cut : v.Cut rest before text (t :: tokens)) :
    ∃ gap more, text = gap ++ (t.lexeme.toList ++ more) ∧ t.span.first = .after (before ++ gap) := by
  cases cut with
  | token isGap isLexeme others => exact ⟨_, _, by rw [tokenAfter, String.toList_ofList], rfl⟩

/-- **A pattern that is not anchored.** Its bracket closes the group, and the alternative after it
is found behind the front. Where it is ignored, the character before it is skipped as well, which
no pattern matches, and what follows is not where it is said to be. -/
theorem anchoredPattern_escapes :
    (∃ p, anchoredPattern "a)|(b" = .ok p ∧ p.find? "xb".toList = some (1, 2) ∧ ¬ p.FrontOnly)
      ∧ ∃ g, Xbnf.load "g" (unlines ["ignore /a)|(b/;", "<g> ::= \"c\";"]) = .ok g
        ∧ ¬ g.vocabulary.Accounts [] "xbc".toList (g.vocabulary.tokenize "xbc") := by
  constructor
  · have found : (anchoredPattern "a)|(b").toOption.map (·.find? "xb".toList) = some (some (1, 2)) := by
      decide +kernel
    obtain ⟨p, accepted, found⟩ := Option.map_eq_some_iff.1 found
    exact ⟨p, Except.toOption_eq_some.1 accepted, found, fun front => nomatch front _ _ _ found⟩
  have loaded : ∃ g, Xbnf.load "g" (unlines ["ignore /a)|(b/;", "<g> ::= \"c\";"]) = .ok g
      ∧ (g.vocabulary.tokenize "xbc").toOption.map (·.map fun t => (t.lexeme, t.span.first))
        = some [("c", ⟨1, 2⟩)] := by
    apply Xbnf.exists_load
    case spelled => repeat' constructor
    rw [Xbnf.loadAlong_eq]
    decide +kernel
  obtain ⟨g, loaded, cut⟩ := loaded
  obtain ⟨tokens, cut, only⟩ := Option.map_eq_some_iff.1 cut
  obtain ⟨t, _, rfl, same, others⟩ := List.map_eq_cons_iff.1 only
  obtain rfl := List.map_eq_nil_iff.1 others
  obtain ⟨lexeme, first⟩ := Prod.mk.inj same
  refine ⟨g, loaded, fun accounts => ?_⟩
  rw [Except.toOption_eq_some.1 cut] at accounts
  obtain ⟨gap, more, eq, place⟩ := Vocabulary.Cut.exists_gap accounts
  rw [lexeme] at eq
  rw [first] at place
  match gap with
  | [] => cases eq
  | [_] => cases eq
  | [_, _] =>
    cases eq
    revert place
    decide
  | _ :: _ :: _ :: _ => simpa using congrArg List.length eq
end Polyglot
