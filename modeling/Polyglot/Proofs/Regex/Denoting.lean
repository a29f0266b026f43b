import Mathlib.Algebra.BigOperators.Group.List.Basic
import Mathlib.Computability.Language
import Polyglot.Proofs.Regex.Following
import Polyglot.Regex.Reader

/-!
# Languages of regular expressions

An expression without conditions on places *denotes* a set of texts
(`Regex.Denotes`): what it matches does not depend on what comes before and after it. The
functions that build expressions denote the operations on sets of texts: a row the product
(`Regex.Denotes.concat`), a choice the sum (`Regex.Denotes.alternation`), and repetitions the
powers up to their bounds (`Regex.Denotes.star` and the others), however much they simplify.
-/

namespace Polyglot.Regex

open scoped Computability

/-- Whether an expression is proper and matches the texts of a set, wherever they are. -/
structure Denotes (r : Regex) (texts : Language Char) : Prop where
  /-- It is proper. -/
  proper : r.IsProper
  /-- It matches the texts of the set. -/
  matches_iff : ∀ before text after, r.Matches before text after ↔ text ∈ texts

namespace Denotes

variable {r : Regex} {rs : List Regex} {texts : Language Char} {sets : List (Language Char)}

theorem isProper_of_forall₂ (each : List.Forall₂ Denotes rs sets) : ∀ r ∈ rs, r.IsProper := by
  induction each with
  | nil => exact List.forall_mem_nil _
  | cons first _ ih => exact List.forall_mem_cons.2 ⟨first.proper, ih⟩

/-! ## Single texts and characters -/

theorem chars (cs : List Char) : (chars cs).Denotes {cs} := ⟨trivial, fun _ _ _ => Iff.rfl⟩

theorem anyInLine : (one .anyInLine).Denotes {text | ∃ c, c ≠ '\n' ∧ text = [c]} := by
  refine ⟨CharSet.isProper_anyInLine, fun _ text _ => ?_⟩
  constructor
  · rintro ⟨c, rfl, other⟩
    rw [CharSet.contains_anyInLine, bne_iff_ne] at other
    exact ⟨c, other, rfl⟩
  · rintro ⟨c, other, rfl⟩
    refine ⟨c, rfl, ?_⟩
    rwa [CharSet.contains_anyInLine, bne_iff_ne]

/-! ## Rows -/

theorem inRow_iff (each : List.Forall₂ Denotes rs sets) {before text after : List Char} :
    InRow (rs.map Matches) before text after ↔ text ∈ sets.prod := by
  induction each generalizing before text with
  | nil => rfl
  | cons first _ ih =>
    rw [List.map_cons, inRow_cons, List.prod_cons, Language.mem_mul]
    constructor
    · rintro ⟨left, right, rfl, holds, others⟩
      exact ⟨left, (first.matches_iff ..).1 holds, right, ih.1 others, rfl⟩
    · rintro ⟨left, holds, right, others, rfl⟩
      exact ⟨left, right, rfl, (first.matches_iff ..).2 holds, ih.2 others⟩

/-- A row denotes the product. -/
theorem concat (each : List.Forall₂ Denotes rs sets) : (concat rs).Denotes sets.prod :=
  ⟨isProper_concat (isProper_of_forall₂ each),
    fun _ _ _ => (matches_concat rs).trans (inRow_iff each)⟩

/-! ## Choices -/

theorem exists_matches_iff (each : List.Forall₂ Denotes rs sets) {before text after : List Char} :
    (∃ r ∈ rs, r.Matches before text after) ↔ text ∈ sets.sum := by
  induction each with
  | nil => exact iff_of_false (fun ⟨_, mem, _⟩ => List.not_mem_nil mem) (Language.notMem_zero _)
  | cons first _ ih =>
    rw [List.exists_mem_cons_iff, List.sum_cons, Language.mem_add, first.matches_iff, ih]

/-- A choice denotes the sum. -/
theorem alternation (each : List.Forall₂ Denotes rs sets) : (alternation rs).Denotes sets.sum := by
  have chooses := chooses_alternation (isProper_of_forall₂ each)
  exact ⟨chooses.proper, fun before text after =>
    (chooses.matches_iff before text after).trans (exists_matches_iff each)⟩

/-! ## Repetitions -/

/-- A repetition denotes the powers within its bounds. -/
theorem repetition_iff (h : r.Denotes texts) {low : Nat} {high : Option Nat}
    (le : ∀ most ∈ high, low ≤ most) (greedy : Bool) (before text after : List Char) :
    (repetition low high greedy r).Matches before text after
      ↔ ∃ n, low ≤ n ∧ (∀ most ∈ high, n ≤ most) ∧ text ∈ texts ^ n := by
  rw [matches_repetition le]
  have rounds (n : Nat) : List.Forall₂ Denotes (List.replicate n r) (List.replicate n texts) := by
    induction n with
    | zero => exact .nil
    | succ n ih => exact .cons h ih
  refine exists_congr fun n => and_congr_right fun _ => and_congr ?_ ?_
  · exact forall₂_congr fun most mem => by rw [max_eq_right (le most mem)]
  · rw [← List.prod_replicate, ← inRow_iff (rounds n), List.map_replicate]

/-- Any number of rounds. -/
theorem star (h : r.Denotes texts) (greedy : Bool) : (repetition 0 none greedy r).Denotes texts∗ := by
  refine ⟨isProper_repetition h.proper, fun before text after => ?_⟩
  rw [h.repetition_iff (by simp), Language.kstar_eq_iSup_pow, Language.mem_iSup]
  simp

/-- At least one round. -/
theorem plus (h : r.Denotes texts) (greedy : Bool) :
    (repetition 1 none greedy r).Denotes (texts * texts∗) := by
  refine ⟨isProper_repetition h.proper, fun before text after => ?_⟩
  rw [h.repetition_iff (by simp), Language.kstar_eq_iSup_pow, Language.mul_iSup, Language.mem_iSup]
  simp only [← pow_succ']
  constructor
  · rintro ⟨n, least, -, mem⟩
    obtain ⟨n, rfl⟩ := Nat.exists_eq_add_of_le' least
    exact ⟨n, mem⟩
  · rintro ⟨n, mem⟩
    exact ⟨n + 1, Nat.le_add_left .., nofun, mem⟩

/-- At most one round. -/
theorem optional (h : r.Denotes texts) (greedy : Bool) :
    (repetition 0 (some 1) greedy r).Denotes (1 + texts) := by
  refine ⟨isProper_repetition h.proper, fun before text after => ?_⟩
  rw [h.repetition_iff (by simp), Language.mem_add]
  constructor
  · rintro ⟨n, -, most, mem⟩
    obtain rfl | rfl := Nat.le_one_iff_eq_zero_or_eq_one.1 (most 1 rfl)
    · exact .inl (by rwa [pow_zero] at mem)
    · exact .inr (by rwa [pow_one] at mem)
  · rintro (mem | mem)
    · exact ⟨0, Nat.le_refl _, by simp, by rwa [pow_zero]⟩
    · exact ⟨1, Nat.zero_le _, by simp, by rwa [pow_one]⟩

end Denotes

/-! ## Parts in hand -/

/-- Whether parts in hand, the last of which comes first, denote a set of texts together. -/
def RowDenotes (parts : List (Nested Regex)) (texts : Language Char) : Prop :=
  ∃ sets, List.Forall₂ (fun part set => Denotes part.value set) parts sets
    ∧ sets.reverse.prod = texts

namespace RowDenotes

variable {parts parts' : List (Nested Regex)} {texts texts' : Language Char}

theorem nil : RowDenotes [] 1 := ⟨[], .nil, rfl⟩

theorem single {part : Nested Regex} (h : part.value.Denotes texts) : RowDenotes [part] texts :=
  ⟨[texts], .cons h .nil, by simp⟩

/-- Parts before others denote the product. -/
theorem append (first : RowDenotes parts texts) (second : RowDenotes parts' texts') :
    RowDenotes (parts' ++ parts) (texts * texts') := by
  obtain ⟨sets, each, rfl⟩ := first
  obtain ⟨sets', each', rfl⟩ := second
  refine ⟨sets' ++ sets, List.rel_append each' each, ?_⟩
  rw [List.reverse_append, List.prod_append]

/-- The row of the parts denotes what they denote together. -/
theorem denotes (h : RowDenotes parts texts) : (rowOf parts).value.Denotes texts := by
  obtain ⟨sets, each, rfl⟩ := h
  have whole : (concat (parts.map Nested.value).reverse).Denotes sets.reverse.prod :=
    .concat (List.rel_reverse (List.forall₂_map_left_iff.2 each))
  match parts, each with
  | [], _ => exact whole
  | [part], .cons first .nil =>
    rw [List.reverse_singleton, List.prod_singleton]
    exact first
  | _ :: _ :: _, _ => exact whole

end RowDenotes

/-- A choice of branches in hand denotes the sum. -/
theorem denotes_join_alternation {branches : List (Nested Regex)} {sets : List (Language Char)}
    (each : List.Forall₂ (fun branch set => Denotes branch.value set) branches sets) :
    (Nested.join alternation branches).value.Denotes sets.sum := by
  have whole : (alternation (branches.map Nested.value).reverse).Denotes sets.sum := by
    rw [← List.sum_reverse]
    exact .alternation (List.rel_reverse (List.forall₂_map_left_iff.2 each))
  match branches, each with
  | [], _ => exact whole
  | [branch], .cons first .nil =>
    rw [List.sum_singleton]
    exact first
  | _ :: _ :: _, _ => exact whole

/-! ## Matches of whole texts -/

/-- Between both ends of a text an expression matches the text as a whole. -/
theorem isMatch_whole {r : Regex} {texts : Language Char} (h : r.Denotes texts) (text : List Char) :
    (concat [look .start, r, look .stop]).program.isMatch text ↔ text ∈ texts := by
  rw [isMatch_program_iff]
  simp only [matches_concat, List.map_cons, List.map_nil, inRow_cons]
  constructor
  · rintro ⟨before, _, after, rfl, _, _, rfl, ⟨rfl, first⟩, middle, _, rfl, holds, _, _, rfl,
      ⟨rfl, last⟩, rfl⟩
    obtain rfl : before = [] := List.getLast?_eq_none_iff.1 (Option.isNone_iff_eq_none.1 first)
    obtain rfl : after = [] := List.head?_eq_none_iff.1 (Option.isNone_iff_eq_none.1 last)
    simpa using (h.matches_iff ..).1 holds
  · intro mem
    refine ⟨[], text, [], by simp, [], text, rfl, ⟨rfl, rfl⟩, text, [], (List.append_nil _).symm,
      (h.matches_iff ..).2 mem, [], [], rfl, ⟨rfl, rfl⟩, rfl⟩

end Polyglot.Regex
