import Polyglot.Proofs.Lexis.Accounting
import Polyglot.Proofs.Lexis.Printing

/-!
# The order of a vocabulary

Of several longest matches the entry for exactly that text is taken, and else the one that was
declared first. So the order of the entries counts only where two of them take equally much and
are both, or neither of them, the entry for exactly what they take. Where no text leads to such
a pair (`Vocabulary.IsClear`), two vocabularies with the same entries in different orders cut
every source in the same way (`Vocabulary.tokenize_congr`).

The vocabularies of shapes are clear whatever shapes they have (`Lexicon.isClear`): an exact text
that is taken is the entry for exactly that text, and the four shapes with a name start with
different characters.
-/

namespace Polyglot

open Polyglot.Source
open Regex.Program

namespace Vocabulary

variable {v v' : Vocabulary}

/-- Whether two entries that take equally much of a text, and are both or neither of them the
one for exactly what they take, are always the same. -/
def IsClear (entries : List Entry) (text : List Char) : Prop :=
  ∀ e ∈ entries, ∀ e' ∈ entries, ∀ n, n ≠ 0 →
    e.matchLength? text = some n → e'.matchLength? text = some n →
    e.isExactFor (String.ofList (text.take n)) = e'.isExactFor (String.ofList (text.take n)) → e = e'

/-- What is found in a list does not depend on its order if there is only one to find. -/
theorem find?_eq_of_mem_iff {α : Type} {p : α → Bool} {xs ys : List α} (same : ∀ x, x ∈ xs ↔ x ∈ ys)
    (only : ∀ x ∈ xs, ∀ y ∈ xs, p x → p y → x = y) : xs.find? p = ys.find? p := by
  cases found : xs.find? p with
  | none =>
    refine (List.find?_eq_none.2 fun y mem => ?_).symm
    exact List.find?_eq_none.1 found y ((same y).2 mem)
  | some x =>
    have mem := List.mem_of_find?_eq_some found
    have holds := List.find?_some found
    obtain ⟨y, found'⟩ := Option.isSome_iff_exists.1
      (List.find?_isSome.2 ⟨x, (same x).1 mem, holds⟩)
    have mem' := (same y).2 (List.mem_of_find?_eq_some found')
    rw [found', only x mem y mem' holds (List.find?_some found')]

theorem mem_of_firstFor {entries : List Entry} {text : List Char} {length : Nat} {e : Entry}
    (first : firstFor entries text length = some e) :
    e ∈ entries ∧ e.matchLength? text = some length := by
  rcases Option.or_eq_some_iff.1 first with found | ⟨-, found⟩
  · have holds := List.find?_some found
    simp only [Bool.and_eq_true, beq_iff_eq] at holds
    exact ⟨List.mem_of_find?_eq_some found, holds.2⟩
  · have holds := List.find?_some found
    exact ⟨List.mem_of_find?_eq_some found, beq_iff_eq.1 holds⟩

/-- The entry that is chosen for a length does not depend on the order of the entries. -/
theorem firstFor_congr {entries entries' : List Entry} {text : List Char} {length : Nat}
    (same : ∀ e, e ∈ entries ↔ e ∈ entries') (clear : IsClear entries text) (pos : length ≠ 0) :
    firstFor entries text length = firstFor entries' text length := by
  have exacts : entries.find? (fun e =>
        e.isExactFor (String.ofList (text.take length)) && e.matchLength? text == some length)
      = entries'.find? (fun e =>
        e.isExactFor (String.ofList (text.take length)) && e.matchLength? text == some length) := by
    refine find?_eq_of_mem_iff same fun e mem e' mem' fits fits' => ?_
    rw [Bool.and_eq_true, beq_iff_eq] at fits fits'
    exact clear e mem e' mem' length pos fits.2 fits'.2 (fits.1.trans fits'.1.symm)
  unfold firstFor
  rw [← exacts]
  cases found : entries.find? fun e =>
      e.isExactFor (String.ofList (text.take length)) && e.matchLength? text == some length with
  | some e => rfl
  | none =>
    -- none of those with this length is the one for exactly the text, so they are all the same
    have inexact : ∀ e ∈ entries, e.matchLength? text = some length →
        e.isExactFor (String.ofList (text.take length)) = false := by
      intro e mem fits
      have := List.find?_eq_none.1 found e mem
      simpa [fits] using this
    rw [Option.none_or, Option.none_or]
    refine find?_eq_of_mem_iff same fun e mem e' mem' fits fits' => ?_
    rw [beq_iff_eq] at fits fits'
    exact clear e mem e' mem' length pos fits fits'
      ((inexact e mem fits).trans (inexact e' mem' fits').symm)

/-- The best match does not depend on the order of the entries. -/
theorem IsBest.eq {entries entries' : List Entry} {text : List Char}
    {best best' : Option (Entry × Nat)} (isBest : IsBest text entries best)
    (isBest' : IsBest text entries' best') (same : ∀ e, e ∈ entries ↔ e ∈ entries')
    (clear : IsClear entries text) : best = best' := by
  cases best with
  | none =>
    cases best' with
    | none => rfl
    | some found =>
      obtain ⟨pos, -, first⟩ := isBest'
      obtain ⟨mem, fits⟩ := mem_of_firstFor first
      exact absurd (isBest _ ((same _).2 mem) _ fits) (Nat.ne_of_gt pos)
  | some found =>
    obtain ⟨e, length⟩ := found
    obtain ⟨pos, bound, first⟩ := isBest
    obtain ⟨mem, fits⟩ := mem_of_firstFor first
    cases best' with
    | none => exact absurd (isBest' _ ((same _).1 mem) _ fits) (Nat.ne_of_gt pos)
    | some found' =>
      obtain ⟨e', length'⟩ := found'
      obtain ⟨-, bound', first'⟩ := isBest'
      obtain ⟨mem', fits'⟩ := mem_of_firstFor first'
      obtain rfl : length = length' := Nat.le_antisymm
        (bound' e ((same e).1 mem) _ fits) (bound e' ((same e').2 mem') _ fits')
      rw [firstFor_congr same clear (Nat.ne_of_gt pos), first'] at first
      rw [Option.some.inj first]

/-- **The longest match** does not depend on the order of the entries. -/
theorem longestMatch_congr (same : ∀ e, e ∈ v.entries ↔ e ∈ v'.entries) {text : List Char}
    (clear : IsClear v.entries text) : v.longestMatch text = v'.longestMatch text :=
  (isBest_longestMatch v text).eq (isBest_longestMatch v' text) same clear

theorem skipIgnored_congr (ignored : v.ignored = v'.ignored) (fuel : Nat) (place : Place) :
    v.skipIgnored fuel place = v'.skipIgnored fuel place := by
  induction fuel generalizing place with
  | zero => rfl
  | succ fuel ih => simp only [skipIgnored, ignored, ih]

theorem tokensFrom_congr (ignored : v.ignored = v'.ignored)
    (longest : ∀ text, v.longestMatch text = v'.longestMatch text) (fuel : Nat) (place : Place) :
    v.tokensFrom fuel place = v'.tokensFrom fuel place := by
  induction fuel generalizing place with
  | zero => rfl
  | succ fuel ih => simp only [tokensFrom, skipIgnored_congr ignored, longest, ih]

/-- **The order of the entries of a vocabulary does not matter** where every text decides
between them: sources are cut into the same tokens, or fail in the same way. -/
theorem tokenize_congr (ignored : v.ignored = v'.ignored)
    (same : ∀ e, e ∈ v.entries ↔ e ∈ v'.entries) (clear : ∀ text, IsClear v.entries text)
    (source : String) : v.tokenize source = v'.tokenize source :=
  tokensFrom_congr ignored (fun text => longestMatch_congr same (clear text)) _ _

end Vocabulary

namespace Lexicon

variable {l l' : Lexicon}

namespace Shape

/-- An exact text takes itself. -/
theorem toList_eq_take {whole : String} {text : List Char} {n : Nat}
    (reaches : (exact whole).reach? text = some n) : whole.toList = text.take n := by
  change reachExactly whole.toList text = some n at reaches
  unfold reachExactly at reaches
  split at reaches
  · rename_i isPrefix
    obtain rfl := Option.some.inj reaches
    exact List.prefix_iff_eq_take.1 (List.isPrefixOf_iff_prefix.1 isPrefix)
  · cases reaches

/-- An exact text that takes something is the one for exactly that. -/
theorem isExactFor_of_reach? {whole : String} {text : List Char} {n : Nat}
    (reaches : (exact whole).reach? text = some n) : (exact whole).isExactFor (text.take n) := by
  rw [isExactFor, toList_eq_take reaches, beq_self_eq_true]

/-- **The shapes with a name start with different characters.** -/
theorem eq_of_starts {s s' : Shape} (named : ∀ whole, s ≠ exact whole)
    (named' : ∀ whole, s' ≠ exact whole) {c : Char} (starts : s.starts c) (starts' : s'.starts c) :
    s = s' := by
  -- as numbers of characters, which are compared by arithmetic
  have eq_iff (d : Char) : (c == d) = decide (c.toNat = d.toNat) := by
    rw [Bool.eq_iff_iff, beq_iff_eq, decide_eq_true_iff, Char.toNat_inj]
  cases s <;> cases s' <;> first
    | rfl
    | exact absurd rfl (named _)
    | exact absurd rfl (named' _)
    | simp [Shape.starts, eq_iff, initials, digits, CharSet.contains] at starts starts'
      omega

/-- Two shapes that take equally much, and are both or neither of them the one for exactly what
they take, are the same. -/
theorem eq_of_reach? {s s' : Shape} {text : List Char} {n : Nat} (pos : n ≠ 0)
    (reaches : s.reach? text = some n) (reaches' : s'.reach? text = some n)
    (alike : s.isExactFor (text.take n) = s'.isExactFor (text.take n)) : s = s' := by
  obtain ⟨c, rest, rfl⟩ : ∃ c rest, text = c :: rest := List.exists_cons_of_length_pos
    (Nat.lt_of_lt_of_le (Nat.pos_of_ne_zero pos) (reach?_le reaches))
  by_cases exacts : s.isExactFor ((c :: rest).take n)
  · have exacts' := alike ▸ exacts
    cases s <;> try exact absurd exacts Bool.false_ne_true
    cases s' <;> try exact absurd exacts' Bool.false_ne_true
    rw [String.toList_inj.1 ((toList_eq_take reaches).trans (toList_eq_take reaches').symm)]
  · refine eq_of_starts ?_ ?_ (starts_of_reach? reaches pos) (starts_of_reach? reaches' pos)
    · rintro whole rfl
      exact exacts (isExactFor_of_reach? reaches)
    · rintro whole rfl
      exact exacts (alike ▸ isExactFor_of_reach? reaches')

end Shape

/-- **A vocabulary of shapes is clear**, whatever shapes it has. -/
theorem isClear (l : Lexicon) (text : List Char) : Vocabulary.IsClear l.vocabulary.entries text := by
  intro e mem e' mem' n pos fits fits' alike
  obtain ⟨s, -, rfl⟩ := List.mem_map.1 mem
  obtain ⟨s', -, rfl⟩ := List.mem_map.1 mem'
  rw [Shape.matchLength?_entry] at fits fits'
  rw [isExactFor_entry, isExactFor_entry] at alike
  rw [Shape.eq_of_reach? pos fits fits' alike]

/-- **Lexicons with the same shapes**, in whatever order, cut every source in the same way. -/
theorem tokenize_vocabulary_congr (comments : l.comments = l'.comments)
    (same : ∀ s, s ∈ l.shapes ↔ s ∈ l'.shapes) (source : String) :
    l.vocabulary.tokenize source = l'.vocabulary.tokenize source := by
  refine Vocabulary.tokenize_congr ?_ (fun e => ?_) l.isClear source
  · unfold vocabulary
    rw [comments]
  · simp only [vocabulary, List.mem_map, same]

end Lexicon

end Polyglot
