import Mathlib.Data.List.Find
import Polyglot.Proofs.Lexis.Lexicon

/-!
# Every character of a source is accounted for

A source that is cut into tokens is gap, lexeme, gap, lexeme, …, gap: nothing is lost, and
nothing is read twice (`Vocabulary.tokenize_accounts`). This is said of every vocabulary
that matches at the front of a text only, whatever its patterns are. Where cutting fails,
the source is such a row up to the character that is reported, and no entry goes on there.

What a gap is (`Vocabulary.IsGap`), which entry a lexeme is of (`Vocabulary.chosen?`) and
where a character stands (`Position.after`) is said without the loops that find it. A place
of the source that is reached by moving on is the one that follows from the text before it
(`Position.advanceBy_after`, `Vocabulary.Place.after`), and this is what all loops keep.
-/

namespace Polyglot

open Polyglot.Source

/-! ## Positions -/

namespace Source.Position

/-- The position of the character that a text stands before: its line has one more than the
text has line feeds, and its column one more than there are characters since the last. -/
def after (before : List Char) : Position :=
  ⟨before.count '\n' + 1, (before.reverse.takeWhile (· ≠ '\n')).length + 1⟩

theorem advance_after (before : List Char) (c : Char) :
    (after before).advance c = after (before ++ [c]) := by
  unfold advance after
  by_cases feed : c = '\n'
  · simp [feed]
  · simp [feed]

/-- Moving on by a text leads to where that text ends. -/
theorem advanceBy_after (before text : List Char) :
    (after before).advanceBy text = after (before ++ text) := by
  induction text generalizing before with
  | nil => rw [advanceBy_nil, List.append_nil]
  | cons c text ih => rw [advanceBy_cons, advance_after, ih, List.append_assoc, List.singleton_append]

/-- Moving on does not lead back. -/
theorem not_before_advanceBy (p : Position) (text : List Char) :
    (p.advanceBy text).before p = false := by
  suffices p.line < (p.advanceBy text).line
      ∨ p.line = (p.advanceBy text).line ∧ p.column ≤ (p.advanceBy text).column by
    simp only [before, Bool.or_eq_false_iff, Bool.and_eq_false_iff, decide_eq_false_iff_not,
      beq_eq_false_iff_ne]
    omega
  induction text generalizing p with
  | nil => exact .inr ⟨rfl, Nat.le_refl _⟩
  | cons c text ih =>
    have step : p.line < (p.advance c).line
        ∨ p.line = (p.advance c).line ∧ p.column ≤ (p.advance c).column := by
      unfold advance
      split
      · exact .inl (Nat.lt_succ_self _)
      · exact .inr ⟨rfl, Nat.le_succ _⟩
    have := ih (p.advance c)
    rw [advanceBy_cons]
    omega

theorem between_after (before text : List Char) :
    Span.between (after before) (after (before ++ text))
      = ⟨after before, after (before ++ text)⟩ := by
  rw [← advanceBy_after, Span.between, not_before_advanceBy]
  rfl

end Source.Position

/-! ## Matches -/

namespace Regex.Program

variable {p : Program}

/-- Whether the match in a text is what stands at its front, and the rest follows it. -/
def Takes (p : Program) (taken rest : List Char) : Prop :=
  p.find? (taken ++ rest) = some (0, taken.length)

instance (p : Program) (taken rest : List Char) : Decidable (p.Takes taken rest) :=
  inferInstanceAs (Decidable (_ = _))

/-- Whether the match in a text, if there is one, is always at its front. -/
def FrontOnly (p : Program) : Prop :=
  ∀ text first last, p.find? text = some (first, last) → first = 0

theorem endFrom_le {before : Option Char} {starts : List Nat} {position last : Nat}
    {best : Option Nat} {text : List Char} (bound : ∀ n ∈ best, n ≤ position)
    (found : p.endFrom before starts position best text = some last) :
    last ≤ position + text.length := by
  induction text generalizing before starts position best with
  | nil =>
    rw [endFrom] at found
    split at found
    · exact Nat.le_of_eq (Option.some.inj found).symm
    · exact bound last found
  | cons c rest ih =>
    simp only [endFrom] at found
    generalize p.advance before (some c) starts = next at found
    have still : ∀ n ∈ (if next.2 then some position else best), n ≤ position := by
      split
      · exact fun n mem => Nat.le_of_eq (Option.some.inj mem).symm
      · exact bound
    split at found
    · exact Nat.le_trans (still last found) (Nat.le_add_right ..)
    · have := ih (fun n mem => Nat.le_succ_of_le (still n mem)) found
      rw [List.length_cons]
      omega

theorem findFrom_le {before : Option Char} {position first last : Nat} {text : List Char}
    (found : p.findFrom before position text = some (first, last)) :
    last ≤ position + text.length := by
  induction text generalizing before position with
  | nil =>
    obtain ⟨n, ends, eq⟩ := Option.map_eq_some_iff.1 found
    obtain ⟨-, rfl⟩ := Prod.mk.inj eq
    exact endFrom_le (by simp) ends
  | cons c rest ih =>
    rw [findFrom] at found
    split at found
    · rename_i ends
      obtain ⟨-, rfl⟩ := Prod.mk.inj (Option.some.inj found)
      exact endFrom_le (by simp) ends
    · have := ih found
      rw [List.length_cons]
      omega

/-- A match ends inside the text. -/
theorem find?_le {first last : Nat} {text : List Char} (found : p.find? text = some (first, last)) :
    last ≤ text.length := by
  unfold find? at found
  split at found
  · obtain ⟨n, ends, eq⟩ := Option.map_eq_some_iff.1 found
    obtain ⟨-, rfl⟩ := Prod.mk.inj eq
    simpa using endFrom_le (by simp) ends
  · simpa using findFrom_le found

/-- A match at the front is a text, and the rest follows it. -/
theorem FrontOnly.takes (front : p.FrontOnly) {first last : Nat} {text : List Char}
    (found : p.find? text = some (first, last)) :
    first = 0 ∧ ∃ taken rest, text = taken ++ rest ∧ last = taken.length ∧ p.Takes taken rest := by
  obtain rfl := front text first last found
  refine ⟨rfl, text.take last, text.drop last, (List.take_append_drop ..).symm, ?_, ?_⟩
  · rw [List.length_take, Nat.min_eq_left (find?_le found)]
  · rw [Takes, List.take_append_drop, found, List.length_take, Nat.min_eq_left (find?_le found)]

end Regex.Program

namespace Vocabulary

variable {v : Vocabulary}

/-- Whether all that a vocabulary looks for is matched at the front of a text only. -/
structure FrontOnly (v : Vocabulary) : Prop where
  /-- Entries match at the front. -/
  entries : ∀ e ∈ v.entries, e.matcher.FrontOnly
  /-- Patterns to ignore match at the front. -/
  ignored : ∀ p ∈ v.ignored, p.FrontOnly

/-! ## Gaps -/

/-- Whether a text, in front of a rest, is a row of matches of patterns to ignore. -/
inductive Ignored (v : Vocabulary) (rest : List Char) : List Char → Prop
  | nil : Ignored v rest []
  | cons {pattern : Regex.Program} {taken more : List Char} (mem : pattern ∈ v.ignored)
      (taken_ne : taken ≠ []) (takes : pattern.Takes taken (more ++ rest))
      (others : Ignored v rest more) : Ignored v rest (taken ++ more)

/-- Whether a text, in front of a rest, is all that is skipped there: a row of matches of
patterns to ignore, after which none matches anything. -/
structure IsGap (v : Vocabulary) (gap rest : List Char) : Prop where
  /-- All of it is ignored. -/
  ignored : v.Ignored rest gap
  /-- What follows is not. -/
  stops : ∀ pattern ∈ v.ignored, ∀ taken more, rest = taken ++ more →
    pattern.Takes taken more → taken = []

theorem Ignored.append {first second rest : List Char} (one : v.Ignored (second ++ rest) first)
    (two : v.Ignored rest second) : v.Ignored rest (first ++ second) := by
  induction one with
  | nil => exact two
  | cons mem taken_ne takes _ ih =>
    rw [List.append_assoc]
    exact .cons mem taken_ne (by rwa [List.append_assoc]) ih

/-- The place after a text, where another follows. -/
def Place.after (before rest : List Char) : Place :=
  ⟨before.length, .after before, rest⟩

theorem Place.after_append (before text rest : List Char) :
    (⟨before.length + text.length, (Position.after before).advanceBy text, rest⟩ : Place)
      = .after (before ++ text) rest := by
  rw [Place.after, List.length_append, Position.advanceBy_after]

/-- **Skipping one match** leads over a text that is ignored, which is empty only if the
pattern matches nothing there. -/
theorem skipPattern_after {pattern : Regex.Program} (mem : pattern ∈ v.ignored)
    (front : pattern.FrontOnly) (before text : List Char) :
    ∃ gap rest, text = gap ++ rest ∧ skipPattern (.after before text) pattern = .after (before ++ gap) rest
      ∧ v.Ignored rest gap
      ∧ (gap = [] → ∀ taken more, rest = taken ++ more → pattern.Takes taken more → taken = []) := by
  unfold skipPattern
  cases found : pattern.find? (Place.after before text).rest with
  | none =>
    refine ⟨[], text, rfl, by rw [List.append_nil], .nil, ?_⟩
    rintro - taken more rfl takes
    exact absurd (found.symm.trans takes) nofun
  | some ends =>
    obtain ⟨first, last⟩ := ends
    obtain ⟨rfl, taken, rest, eq, rfl, takes⟩ := front.takes found
    obtain rfl : text = taken ++ rest := eq
    refine ⟨taken, rest, rfl, ?_, ?_, ?_⟩
    · simp only [Place.after, List.take_left', List.drop_left', List.drop_zero]
      exact Place.after_append before taken rest
    · by_cases empty : taken = []
      · rw [empty]
        exact .nil
      · have one : v.Ignored rest (taken ++ []) := .cons mem empty takes .nil
        rwa [List.append_nil] at one
    · rintro rfl taken more rfl takes'
      have same := Option.some.inj (takes.symm.trans takes')
      exact List.eq_nil_of_length_eq_zero (Prod.mk.inj same).2.symm

/-- A round leads over a text that is ignored, which is empty only if no pattern of the
round matches anything there. -/
theorem foldl_skipPattern_after (patterns : List Regex.Program) (sub : patterns ⊆ v.ignored)
    (front : v.FrontOnly) (before text : List Char) :
    ∃ gap rest, text = gap ++ rest
      ∧ patterns.foldl skipPattern (.after before text) = .after (before ++ gap) rest
      ∧ v.Ignored rest gap
      ∧ (gap = [] → ∀ pattern ∈ patterns, ∀ taken more, rest = taken ++ more →
          pattern.Takes taken more → taken = []) := by
  induction patterns generalizing before text with
  | nil => exact ⟨[], text, rfl, by simp, .nil, nofun⟩
  | cons pattern patterns ih =>
    obtain ⟨mem, others⟩ := List.cons_subset.1 sub
    obtain ⟨gap, rest, rfl, eq, ignored, stops⟩ :=
      skipPattern_after mem (front.ignored pattern mem) before text
    obtain ⟨gap', rest, rfl, eq', ignored', stops'⟩ := ih others (before ++ gap) rest
    refine ⟨gap ++ gap', rest, (List.append_assoc ..).symm, ?_, ignored.append ignored', ?_⟩
    · rw [List.foldl_cons, eq, eq', List.append_assoc]
    · intro empty
      obtain ⟨rfl, rfl⟩ := List.append_eq_nil_iff.1 empty
      exact List.forall_mem_cons.2 ⟨stops rfl, stops' rfl⟩

/-- **Skipping leads over a gap.** Every round but the last shortens the text, so an
allowance beyond its length is enough. -/
theorem skipIgnored_after (front : v.FrontOnly) {fuel : Nat} (before : List Char)
    {text : List Char} (enough : text.length < fuel) :
    ∃ gap rest, text = gap ++ rest
      ∧ v.skipIgnored fuel (.after before text) = .after (before ++ gap) rest
      ∧ v.IsGap gap rest := by
  induction fuel generalizing before text with
  | zero => exact absurd enough (Nat.not_lt_zero _)
  | succ fuel ih =>
    obtain ⟨gap, rest, rfl, eq, ignored, stops⟩ :=
      foldl_skipPattern_after v.ignored (List.Subset.refl _) front before text
    rw [skipIgnored, eq]
    by_cases empty : gap = []
    · subst empty
      refine ⟨[], rest, rfl, ?_, .nil, stops rfl⟩
      rw [if_neg (by simp [Place.after])]
    · have progress := List.length_pos_iff.2 empty
      rw [List.length_append] at enough
      have shorter : rest.length < fuel := by omega
      obtain ⟨gap', rest, rfl, eq', isGap⟩ := ih (before ++ gap) shorter
      refine ⟨gap ++ gap', rest, (List.append_assoc ..).symm, ?_, ignored.append isGap.ignored,
        isGap.stops⟩
      rw [if_pos (by simpa [Place.after] using progress)]
      simpa using eq'

/-! ## Lexemes -/

/-- The entry that a lexeme is of: the one for exactly that text if it matches it, and else
the first that does. -/
def chosen? (v : Vocabulary) (lexeme rest : List Char) : Option Entry :=
  (v.entries.find? fun e => e.isExactFor (String.ofList lexeme) && decide (e.matcher.Takes lexeme rest)).or
    (v.entries.find? fun e => decide (e.matcher.Takes lexeme rest))

/-- Whether a lexeme of an entry is cut off in front of a rest. -/
structure IsLexeme (v : Vocabulary) (entry : Entry) (lexeme rest : List Char) : Prop where
  /-- It has characters. -/
  lexeme_ne : lexeme ≠ []
  /-- No entry takes more. -/
  longest : ∀ e ∈ v.entries, ∀ taken more, lexeme ++ rest = taken ++ more →
    e.matcher.Takes taken more → taken.length ≤ lexeme.length
  /-- It is of the entry that it should be of. -/
  chosen : v.chosen? lexeme rest = some entry

/-- Whether no entry takes a character of a text. -/
def IsStuck (v : Vocabulary) (text : List Char) : Prop :=
  ∀ e ∈ v.entries, ∀ taken more, text = taken ++ more → e.matcher.Takes taken more → taken = []

/-- The first of some entries whose match in a text has a length, or the one for exactly that
text if there is one among those. -/
def firstFor (entries : List Entry) (text : List Char) (length : Nat) : Option Entry :=
  (entries.find? fun e => e.isExactFor (String.ofList (text.take length)) && e.matchLength? text == some length).or
    (entries.find? fun e => e.matchLength? text == some length)

/-- Whether a match is the best in a text of those of some entries. -/
def IsBest (text : List Char) (entries : List Entry) : Option (Entry × Nat) → Prop
  | none => ∀ e ∈ entries, ∀ n, e.matchLength? text = some n → n = 0
  | some (entry, length) => 0 < length
      ∧ (∀ e ∈ entries, ∀ n, e.matchLength? text = some n → n ≤ length)
      ∧ firstFor entries text length = some entry

theorem firstFor_eq_none {text : List Char} {entries : List Entry} {length : Nat}
    (none : ∀ e ∈ entries, e.matchLength? text ≠ some length) :
    firstFor entries text length = .none := by
  rw [firstFor, Option.or_eq_none_iff, List.find?_eq_none, List.find?_eq_none]
  exact ⟨fun e mem => by simp [none e mem], fun e mem => by simp [none e mem]⟩

theorem firstFor_concat_of_none {text : List Char} {entries : List Entry} {entry : Entry}
    {length : Nat} (none : ∀ e ∈ entries, e.matchLength? text ≠ some length)
    (fits : entry.matchLength? text = some length) :
    firstFor (entries ++ [entry]) text length = some entry := by
  have before := Option.or_eq_none_iff.1 (firstFor_eq_none none)
  rw [firstFor, List.find?_append, List.find?_append, before.1, before.2, Option.none_or,
    Option.none_or, List.find?_singleton, List.find?_singleton]
  cases entry.isExactFor (String.ofList (text.take length)) <;> simp [fits]

/-- One more entry is taken instead only if it is the one for exactly that text. -/
theorem firstFor_concat {text : List Char} {entries : List Entry} {best : Entry} {length : Nat}
    (first : firstFor entries text length = some best) (entry : Entry) :
    firstFor (entries ++ [entry]) text length
      = if entry.matchLength? text = some length
            ∧ !best.isExactFor (String.ofList (text.take length))
            ∧ entry.isExactFor (String.ofList (text.take length)) then some entry
        else some best := by
  unfold firstFor at first ⊢
  rw [List.find?_append, List.find?_append, List.find?_singleton, List.find?_singleton]
  cases exacts : entries.find? fun e =>
      e.isExactFor (String.ofList (text.take length)) && e.matchLength? text == some length with
  | some found =>
    rw [exacts, Option.some_or] at first
    obtain rfl := Option.some.inj first
    have isExact := List.find?_some exacts
    rw [Bool.and_eq_true] at isExact
    simp [isExact.1]
  | none =>
    rw [exacts, Option.none_or] at first
    have fits := List.find?_some first
    -- the best entry is not the one for exactly this text, or it had been found as that
    have inexact : best.isExactFor (String.ofList (text.take length)) = false := by
      have := List.find?_eq_none.1 exacts best (List.mem_of_find?_eq_some first)
      simpa [fits] using this
    rw [first, Option.none_or, Option.some_or, inexact]
    by_cases fits' : entry.matchLength? text = some length
    · cases entry.isExactFor (String.ofList (text.take length)) <;> simp [fits']
    · simp [fits']

/-- **One more entry** keeps the best match the best. -/
theorem IsBest.next {text : List Char} {entries : List Entry} {best : Option (Entry × Nat)}
    (isBest : IsBest text entries best) (entry : Entry) :
    IsBest text (entries ++ [entry]) (match entry.matchLength? text with
      | none => best
      | some 0 => best
      | some length => betterMatch text best (entry, length)) := by
  -- a match of nothing, or none, or a shorter one, leaves all as it was
  have keep (small : ∀ n, entry.matchLength? text = some n → ∀ found ∈ best, n < found.2)
      (nothing : best = none → ∀ n, entry.matchLength? text = some n → n = 0) :
      IsBest text (entries ++ [entry]) best := by
    cases best with
    | none => exact List.forall_mem_append.2 ⟨isBest, List.forall_mem_singleton.2 (nothing rfl)⟩
    | some found =>
      obtain ⟨positive, longest, first⟩ := isBest
      refine ⟨positive, List.forall_mem_append.2 ⟨longest, List.forall_mem_singleton.2 fun n eq =>
        Nat.le_of_lt (small n eq found rfl)⟩, ?_⟩
      rw [firstFor_concat first, if_neg]
      exact fun fits => Nat.lt_irrefl _ (small _ fits.1 found rfl)
  -- a longer match is the best
  have take {length : Nat} (eq : entry.matchLength? text = some (length + 1))
      (longer : ∀ e ∈ entries, ∀ n, e.matchLength? text = some n → n ≤ length) :
      IsBest text (entries ++ [entry]) (some (entry, length + 1)) := by
    refine ⟨Nat.succ_pos _, List.forall_mem_append.2 ⟨fun e mem n eq =>
      Nat.le_succ_of_le (longer e mem n eq), List.forall_mem_singleton.2 fun n eq' => ?_⟩, ?_⟩
    · exact Nat.le_of_eq (Option.some.inj (eq'.symm.trans eq))
    · exact firstFor_concat_of_none (fun e mem eq => Nat.not_succ_le_self _ (longer e mem _ eq)) eq
  split
  case h_1 eq => exact keep (by simp [eq]) (by simp [eq])
  case h_2 eq =>
    refine keep (fun n eq' found mem => ?_) (by simp [eq])
    obtain rfl := Option.some.inj (eq.symm.trans eq')
    obtain rfl := Option.mem_def.1 mem
    exact isBest.1
  case h_3 length positive eq =>
    obtain ⟨length, rfl⟩ := Nat.exists_eq_succ_of_ne_zero positive
    cases best with
    | none => exact take eq fun e mem n eq' => isBest e mem n eq' ▸ Nat.zero_le _
    | some found =>
      obtain ⟨best, longest⟩ := found
      obtain ⟨positive, bound, first⟩ := isBest
      simp only [betterMatch]
      split
      · rename_i longer
        exact take eq fun e mem n eq' => Nat.le_of_lt_succ (Nat.lt_of_le_of_lt (bound e mem n eq') longer)
      rename_i notLonger
      have bound' : ∀ e ∈ entries ++ [entry], ∀ n, e.matchLength? text = some n → n ≤ longest := by
        refine List.forall_mem_append.2 ⟨bound, List.forall_mem_singleton.2 fun n eq' => ?_⟩
        obtain rfl := Option.some.inj (eq.symm.trans eq')
        exact Nat.le_of_not_lt notLonger
      have next := firstFor_concat first entry
      simp only [eq, Option.some.injEq] at next
      split
      · rename_i preferred
        rw [if_pos preferred] at next
        obtain ⟨rfl, -⟩ := preferred
        exact ⟨positive, bound', next⟩
      · rename_i other
        rw [if_neg other] at next
        exact ⟨positive, bound', next⟩

/-- **The longest match** is the best of all entries. -/
theorem isBest_longestMatch (v : Vocabulary) (text : List Char) :
    IsBest text v.entries (v.longestMatch text) := by
  have fold (entries : List Entry) (before : List Entry) (best : Option (Entry × Nat))
      (isBest : IsBest text before best) :
      IsBest text (before ++ entries) (entries.foldl (fun best entry =>
        match entry.matchLength? text with
        | none => best
        | some 0 => best
        | some length => betterMatch text best (entry, length)) best) := by
    induction entries generalizing before best with
    | nil => rwa [List.append_nil]
    | cons entry entries ih =>
      rw [List.append_cons]
      exact ih (before ++ [entry]) _ (isBest.next entry)
  exact fold v.entries [] none nofun

/-- A match of an entry at the front of a text is what it takes. -/
theorem matchLength?_eq_some (front : v.FrontOnly) {entry : Entry} (mem : entry ∈ v.entries)
    {text : List Char} {length : Nat} :
    entry.matchLength? text = some length
      ↔ ∃ taken rest, text = taken ++ rest ∧ length = taken.length ∧ entry.matcher.Takes taken rest := by
  rw [Entry.matchLength?, Option.map_eq_some_iff]
  constructor
  · rintro ⟨⟨first, last⟩, found, rfl⟩
    exact ((front.entries entry mem).takes found).2
  · rintro ⟨taken, rest, rfl, rfl, takes⟩
    exact ⟨_, takes, rfl⟩

theorem matchLength?_append (front : v.FrontOnly) {entry : Entry} (mem : entry ∈ v.entries)
    {taken rest : List Char} :
    entry.matchLength? (taken ++ rest) = some taken.length ↔ entry.matcher.Takes taken rest := by
  rw [matchLength?_eq_some front mem]
  constructor
  · rintro ⟨taken', rest', eq, length, takes⟩
    obtain ⟨rfl, rfl⟩ := List.append_inj eq length
    exact takes
  · exact fun takes => ⟨taken, rest, rfl, rfl, takes⟩

theorem firstFor_eq_chosen? (front : v.FrontOnly) (lexeme rest : List Char) :
    firstFor v.entries (lexeme ++ rest) lexeme.length = v.chosen? lexeme rest := by
  have same : ∀ e ∈ v.entries, (e.matchLength? (lexeme ++ rest) == some lexeme.length)
      = decide (e.matcher.Takes lexeme rest) := by
    intro e mem
    rw [Bool.eq_iff_iff, beq_iff_eq, decide_eq_true_iff, matchLength?_append front mem]
  rw [firstFor, chosen?, List.take_left']
  · congr 1
    · exact List.find?_congr fun e mem => by rw [same e mem]
    · exact List.find?_congr fun e mem => same e mem
  · rfl

/-- Where there is no longest match no entry takes anything. -/
theorem isStuck_of_longestMatch (front : v.FrontOnly) {text : List Char}
    (none : v.longestMatch text = none) : v.IsStuck text := by
  have isBest := v.isBest_longestMatch text
  rw [none] at isBest
  rintro e mem taken more rfl takes
  exact List.eq_nil_of_length_eq_zero
    (isBest e mem _ ((matchLength?_append front mem).2 takes))

/-- The longest match is a lexeme. -/
theorem isLexeme_of_longestMatch (front : v.FrontOnly) {text : List Char} {entry : Entry}
    {length : Nat} (found : v.longestMatch text = some (entry, length)) :
    ∃ lexeme rest, text = lexeme ++ rest ∧ length = lexeme.length ∧ v.IsLexeme entry lexeme rest := by
  have isBest := v.isBest_longestMatch text
  rw [found] at isBest
  obtain ⟨positive, longest, first⟩ := isBest
  have fits : entry ∈ v.entries ∧ entry.matchLength? text = some length := by
    obtain found | ⟨-, found⟩ := Option.or_eq_some_iff.1 first
    · have fits := List.find?_some found
      rw [Bool.and_eq_true, beq_iff_eq] at fits
      exact ⟨List.mem_of_find?_eq_some found, fits.2⟩
    · have fits := List.find?_some found
      rw [beq_iff_eq] at fits
      exact ⟨List.mem_of_find?_eq_some found, fits⟩
  obtain ⟨lexeme, rest, rfl, rfl, -⟩ := (matchLength?_eq_some front fits.1).1 fits.2
  refine ⟨lexeme, rest, rfl, rfl, List.ne_nil_of_length_pos positive, ?_, ?_⟩
  · exact fun e mem taken more eq takes =>
      longest e mem _ (eq ▸ (matchLength?_append front mem).2 takes)
  · rw [← firstFor_eq_chosen? front, first]

/-! ## Sources -/

/-- The token of a lexeme of an entry that stands behind a text: from its first character to
its last. -/
def tokenAfter (entry : Entry) (before lexeme : List Char) : Token where
  type := entry.name
  lexeme := String.ofList lexeme
  literal := entry.rule.value? (String.ofList lexeme)
  span := ⟨.after before, .after (before ++ lexeme.dropLast)⟩

theorem tokenOf_after (entry : Entry) (before lexeme : List Char) :
    tokenOf entry (.after before) lexeme = tokenAfter entry before lexeme := by
  rw [tokenOf, Position.advanceBy_after, Position.between_after, tokenAfter]

/-- Whether a text, of which some has been read before, is gap, lexeme, gap, …, lexeme, gap in
front of a rest, and these are the tokens of the lexemes. -/
inductive Cut (v : Vocabulary) (rest : List Char) : List Char → List Char → List Token → Prop
  | done {before gap : List Char} (isGap : v.IsGap gap rest) : Cut v rest before (gap ++ rest) []
  | token {before gap lexeme text : List Char} {entry : Entry} {tokens : List Token}
      (isGap : v.IsGap gap (lexeme ++ text)) (isLexeme : v.IsLexeme entry lexeme text)
      (others : Cut v rest (before ++ gap ++ lexeme) text tokens) :
      Cut v rest before (gap ++ (lexeme ++ text))
        (tokenAfter entry (before ++ gap) lexeme :: tokens)

/-- What cutting a text, of which some has been read before, comes to: tokens up to its end,
or tokens up to a character at which no entry goes on. -/
def Accounts (v : Vocabulary) (before text : List Char) : Except LexError (List Token) → Prop
  | .ok tokens => v.Cut [] before text tokens
  | .error e => ∃ tokens done rest, before ++ text = done ++ e.character :: rest
      ∧ v.Cut (e.character :: rest) before text tokens ∧ v.IsStuck (e.character :: rest)
      ∧ e.position = .after done

/-- **Cutting goes on from place to place.** Every lexeme shortens the text, so an allowance
beyond its length is enough. -/
theorem accounts_tokensFrom (front : v.FrontOnly) {fuel : Nat} (before : List Char)
    {text : List Char} (enough : text.length < fuel) :
    v.Accounts before text (v.tokensFrom fuel (.after before text)) := by
  induction fuel generalizing before text with
  | zero => exact absurd enough (Nat.not_lt_zero _)
  | succ fuel ih =>
    obtain ⟨gap, rest, rfl, skipped, isGap⟩ := skipIgnored_after front before enough
    rw [tokensFrom, skipped]
    cases rest with
    | nil => exact .done isGap
    | cons c rest =>
      simp only [Place.after]
      cases found : v.longestMatch (c :: rest) with
      | none =>
        exact ⟨[], before ++ gap, rest, (List.append_assoc ..).symm, .done isGap,
          isStuck_of_longestMatch front found, rfl⟩
      | some found' =>
        obtain ⟨entry, length⟩ := found'
        obtain ⟨lexeme, text, eq, rfl, isLexeme⟩ := isLexeme_of_longestMatch front found
        rw [eq] at isGap enough ⊢
        -- a lexeme is not empty, so what is left needs less
        have progress := List.length_pos_iff.2 isLexeme.lexeme_ne
        simp only [List.length_append] at enough
        have shorter : text.length < fuel := by omega
        have next := ih (before ++ gap ++ lexeme) shorter
        simp only [List.take_left', List.drop_left', Place.after_append, tokenOf_after]
        cases others : v.tokensFrom fuel (.after (before ++ gap ++ lexeme) text) with
        | ok tokens =>
          rw [others] at next
          exact .token isGap isLexeme next
        | error e =>
          rw [others] at next
          obtain ⟨tokens, done, rest, eq, cut, stuck, position⟩ := next
          refine ⟨tokenAfter entry (before ++ gap) lexeme :: tokens, done, rest, ?_,
            .token isGap isLexeme cut, stuck, position⟩
          rw [← eq, List.append_assoc, List.append_assoc]

/-- **Every character is accounted for.** A source that is cut into tokens is gap, lexeme, gap,
…, lexeme, gap, and the tokens are those of the lexemes; and where cutting fails it is such a
row up to the character that is reported, which is the first, after a gap, where no entry goes
on. -/
theorem tokenize_accounts (v : Vocabulary) (front : v.FrontOnly) (source : String) :
    v.Accounts [] source.toList (v.tokenize source) :=
  accounts_tokensFrom front [] (Nat.lt_succ_self _)

end Vocabulary

namespace Lexicon

open Regex.Program Vocabulary

theorem frontOnly_of_find? {p : Regex.Program} {reach : List Char → Option Nat}
    (find : ∀ text, p.find? text = (reach text).map (0, ·)) : p.FrontOnly := by
  intro text first last found
  rw [find, Option.map_eq_some_iff] at found
  obtain ⟨_, -, eq⟩ := found
  exact (Prod.mk.inj eq).1.symm

theorem Shape.frontOnly_entry (s : Shape) : s.entry.matcher.FrontOnly := by
  cases s with
  | exact whole =>
    show (Regex.concat [.look .start, .literal whole.toList]).program.FrontOnly
    rw [program_literal]
    exact frontOnly_of_find? (find?_exactly whole.toList)
  | identifier => exact frontOnly_of_find? (find?_oneAndMore _ _)
  | integer => exact frontOnly_of_find? (find?_oneOrMore _)
  | string => exact frontOnly_of_find? (find?_between (.inl rfl))
  | regex => exact frontOnly_of_find? (find?_between (.inr rfl))

/-- The vocabularies that there are in practice match at the front only. -/
theorem frontOnly_vocabulary (l : Lexicon) : l.vocabulary.FrontOnly where
  entries := List.forall_mem_map.2 fun s _ => s.frontOnly_entry
  ignored := by
    refine List.forall_mem_cons.2 ⟨frontOnly_of_find? (find?_oneOrMore _), ?_⟩
    split
    · exact List.forall_mem_singleton.2 (frontOnly_of_find? (find?_oneAndMore _ _))
    · exact nofun

/-- A keyword, two signs of which one starts the other, and a comment. -/
theorem tokenize_accounts_keyword :
    let v := (Lexicon.mk [.identifier, .exact "if", .exact "=", .exact "=="] true).vocabulary
    v.FrontOnly ∧ v.Accounts [] "if # é\n ifs==".toList (v.tokenize "if # é\n ifs==")
      ∧ (v.tokenize "if # é\n ifs==").toOption.map (·.map fun t => (t.type, t.span))
        = some [("\"if\"", ⟨⟨1, 1⟩, ⟨1, 2⟩⟩), ("identifier", ⟨⟨2, 2⟩, ⟨2, 4⟩⟩),
          ("\"==\"", ⟨⟨2, 5⟩, ⟨2, 6⟩⟩)] := by
  refine ⟨frontOnly_vocabulary _, tokenize_accounts _ (frontOnly_vocabulary _) _, ?_⟩
  rw [tokenize_vocabulary]
  decide +kernel

end Lexicon

end Polyglot
