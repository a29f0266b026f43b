import Mathlib.Data.List.Basic
import Polyglot.Regex.Basic

/-!
# What regular expressions match

An expression matches a text between what comes before it and what comes after it
(`Regex.Matches`). This is said by recursion on the expression, without programs, and without an
order of preference among the matches.

Expressions are only built in a simplified form. The functions that build them mean what they
say: a row matches the texts that its factors match one after the other (`matches_concat`), a
choice those that one of its alternatives matches (`matches_alternation`), and a repetition those
that so many rounds match (`matches_repetition`). The set that single characters are joined to has
all its ends at characters (`CharSet.IsProper`), and what is built keeps this.
-/

namespace Polyglot

/-! ## Sets -/

namespace CharSet

theorem any_insertRange (low high n : Nat) (ranges : List (Nat × Nat)) :
    (insertRange low high ranges).any (fun r => decide (r.1 ≤ n) && decide (n ≤ r.2))
      = ((decide (low ≤ n) && decide (n ≤ high))
        || ranges.any fun r => decide (r.1 ≤ n) && decide (n ≤ r.2)) := by
  induction ranges generalizing low high with
  | nil => rfl
  | cons range ranges ih =>
    obtain ⟨first, last⟩ := range
    unfold insertRange
    split
    · rfl
    · split
      · rw [List.any_cons, ih, List.any_cons, Bool.or_left_comm]
      · -- the two ranges touch, so there is nothing between them
        rw [ih, List.any_cons, ← Bool.or_assoc]
        congr 1
        rw [Bool.eq_iff_iff]
        simp only [Bool.or_eq_true, Bool.and_eq_true, decide_eq_true_eq]
        omega

/-- A union has the characters of both sides. -/
@[simp] theorem contains_union (s t : CharSet) (c : Char) :
    (s.union t).contains c = (s.contains c || t.contains c) := by
  unfold union contains
  induction s.ranges with
  | nil => rfl
  | cons range ranges ih => rw [List.foldr_cons, any_insertRange, ih, List.any_cons, Bool.or_assoc]

theorem contains_unionOfList (sets : List CharSet) (c : Char) :
    (unionOfList sets).contains c = sets.any (·.contains c) := by
  unfold unionOfList
  induction sets with
  | nil => rfl
  | cons s sets ih => rw [List.foldr_cons, contains_union, ih, List.any_cons]

/-- Whether all ranges of a set start at characters. -/
def IsProper (s : CharSet) : Prop := ∀ range ∈ s.ranges, range.1.isValidChar

theorem isProper_singleton (c : Char) : (singleton c).IsProper :=
  List.forall_mem_singleton.2 c.valid

theorem isProper_anyInLine : anyInLine.IsProper := by
  unfold IsProper
  decide

theorem forall_mem_insertRange {low high : Nat} {ranges : List (Nat × Nat)} (valid : low.isValidChar)
    (proper : ∀ range ∈ ranges, range.1.isValidChar) :
    ∀ range ∈ insertRange low high ranges, range.1.isValidChar := by
  induction ranges generalizing low high with
  | nil => exact List.forall_mem_singleton.2 valid
  | cons range ranges ih =>
    obtain ⟨first, last⟩ := range
    obtain ⟨valid', proper'⟩ := List.forall_mem_cons.1 proper
    unfold insertRange
    split
    · exact List.forall_mem_cons.2 ⟨valid, proper⟩
    · split
      · exact List.forall_mem_cons.2 ⟨valid', ih valid proper'⟩
      · refine ih ?_ proper'
        rcases Nat.le_total low first with le | le
        · rwa [Nat.min_eq_left le]
        · rwa [Nat.min_eq_right le]

theorem IsProper.union {s t : CharSet} (proper : s.IsProper) (proper' : t.IsProper) :
    (s.union t).IsProper := by
  obtain ⟨ranges⟩ := s
  unfold CharSet.union IsProper at *
  induction ranges with
  | nil => exact proper'
  | cons range ranges ih =>
    obtain ⟨valid, proper⟩ := List.forall_mem_cons.1 proper
    exact forall_mem_insertRange valid (ih proper)

theorem isProper_unionOfList {sets : List CharSet} (proper : ∀ s ∈ sets, s.IsProper) :
    (unionOfList sets).IsProper := by
  unfold unionOfList
  induction sets with
  | nil => exact List.forall_mem_nil _
  | cons s sets ih =>
    obtain ⟨first, others⟩ := List.forall_mem_cons.1 proper
    exact first.union (ih others)

theorem contains_iff_of_single? {s : CharSet} (proper : s.IsProper) {c : Char}
    (single : s.single? = some c) (d : Char) : s.contains d ↔ d = c := by
  unfold single? at single
  split at single
  · rename_i low high ranges
    split at single
    · rename_i same
      obtain rfl := Option.some.inj single
      have valid : low.isValidChar := proper _ (by rw [ranges]; exact List.mem_singleton_self _)
      have number : (Char.ofNat low).toNat = low := by
        rw [Char.ofNat, dif_pos valid]
        rfl
      rw [contains, ranges, List.any_cons, List.any_nil, Bool.or_false, ← Char.toNat_inj, number]
      simp only [Bool.and_eq_true, decide_eq_true_eq]
      omega
    · cases single
  · cases single

end CharSet

namespace Regex

/-! ## Rows of conditions -/

/-- A condition on a text, what comes before it and what comes after it. -/
abbrev Sense : Type := List Char → List Char → List Char → Prop

/-- Whether a text is a row of texts for each of which a condition holds. -/
def InRow : List Sense → Sense
  | [], _, text, _ => text = []
  | m :: ms, before, text, after =>
    ∃ first rest, text = first ++ rest ∧ m before first (rest ++ after)
      ∧ InRow ms (before ++ first) rest after

variable {before text after : List Char}

theorem inRow_singleton {m : Sense} : InRow [m] before text after ↔ m before text after := by
  constructor
  · rintro ⟨first, rest, rfl, holds, rfl⟩
    rwa [List.append_nil]
  · exact fun holds => ⟨text, [], (List.append_nil _).symm, holds, rfl⟩

theorem inRow_append {ms ns : List Sense} : InRow (ms ++ ns) before text after ↔
    ∃ first rest, text = first ++ rest ∧ InRow ms before first (rest ++ after)
      ∧ InRow ns (before ++ first) rest after := by
  induction ms generalizing before text with
  | nil =>
    constructor
    · exact fun holds => ⟨[], text, rfl, rfl, by rwa [List.append_nil]⟩
    · rintro ⟨_, rest, rfl, rfl, holds⟩
      rwa [List.append_nil] at holds
  | cons m ms ih =>
    constructor
    · rintro ⟨first, _, rfl, holds, others⟩
      obtain ⟨second, rest, rfl, others, last⟩ := ih.1 others
      rw [List.append_assoc] at holds
      refine ⟨first ++ second, rest, (List.append_assoc ..).symm, ⟨first, second, rfl, holds, others⟩, ?_⟩
      rwa [← List.append_assoc]
    · rintro ⟨_, rest, rfl, ⟨first, second, rfl, holds, others⟩, last⟩
      rw [← List.append_assoc] at last
      rw [List.append_assoc]
      refine ⟨first, second ++ rest, rfl, ?_, ih.2 ⟨second, rest, rfl, others, last⟩⟩
      rwa [List.append_assoc]

theorem inRow_cons {m : Sense} {ms : List Sense} : InRow (m :: ms) before text after ↔
    ∃ first rest, text = first ++ rest ∧ m before first (rest ++ after)
      ∧ InRow ms (before ++ first) rest after :=
  Iff.rfl

theorem inRow_pair {m m' : Sense} : InRow [m, m'] before text after ↔
    ∃ first rest, text = first ++ rest ∧ m before first (rest ++ after)
      ∧ m' (before ++ first) rest after :=
  exists_congr fun _ => exists_congr fun _ => and_congr_right fun _ => and_congr_right fun _ =>
    inRow_singleton

/-! ## Matches -/

/-- Whether an expression matches a text between what comes before it and what comes after it.
A bound on the rounds of a repetition that is less than their least number bounds nothing. -/
def Matches : Regex → Sense
  | empty, _, text, _ => text = []
  | look kind, before, text, after => text = [] ∧ kind.holds before.getLast? after.head?
  | chars cs, _, text, _ => text = cs
  | one set, _, text, _ => ∃ c, text = [c] ∧ set.contains c
  | cat left right, before, text, after =>
    ∃ first rest, text = first ++ rest ∧ left.Matches before first (rest ++ after)
      ∧ right.Matches (before ++ first) rest after
  | alt left right, before, text, after =>
    left.Matches before text after ∨ right.Matches before text after
  | repeated low high _ body, before, text, after =>
    ∃ n, low ≤ n ∧ (∀ most ∈ high, n ≤ max low most)
      ∧ InRow (List.replicate n body.Matches) before text after
  | capture _ body, before, text, after => body.Matches before text after

/-- Whether all sets of an expression are proper. -/
def IsProper : Regex → Prop
  | one set => set.IsProper
  | cat left right => left.IsProper ∧ right.IsProper
  | alt left right => left.IsProper ∧ right.IsProper
  | repeated _ _ _ body => body.IsProper
  | capture _ body => body.IsProper
  | _ => True

/-! ## Rows -/

theorem matches_row (rs : List Regex) :
    (row rs).Matches before text after ↔ InRow (rs.map Matches) before text after := by
  induction rs generalizing before text with
  | nil => rfl
  | cons r rs ih =>
    cases rs with
    | nil => exact inRow_singleton.symm
    | cons s rs =>
      refine exists_congr fun first => exists_congr fun rest => and_congr_right fun _ =>
        and_congr_right fun _ => ?_
      exact ih

theorem inRow_factors (r : Regex) :
    InRow (r.factors.map Matches) before text after ↔ r.Matches before text after := by
  induction r generalizing before text after with
  | cat left right ih ih' =>
    rw [factors, List.map_append, inRow_append]
    simp only [ih, ih']
    rfl
  | empty => rfl
  | _ => exact inRow_singleton

theorem inRow_flatMap_factors (rs : List Regex) :
    InRow ((rs.flatMap factors).map Matches) before text after
      ↔ InRow (rs.map Matches) before text after := by
  induction rs generalizing before text with
  | nil => rfl
  | cons r rs ih =>
    rw [List.flatMap_cons, List.map_append, inRow_append, List.map_cons, inRow_cons]
    simp only [inRow_factors, ih]

/-- Texts next to each other match what their row as one text matches. -/
theorem inRow_chars_append {cs ds : List Char} {ms : List Sense} :
    InRow ((chars (cs ++ ds)).Matches :: ms) before text after
      ↔ InRow ((chars cs).Matches :: (chars ds).Matches :: ms) before text after := by
  constructor
  · rintro ⟨first, rest, rfl, same, others⟩
    obtain rfl : first = cs ++ ds := same
    refine ⟨cs, ds ++ rest, List.append_assoc .., rfl, ds, rest, rfl, rfl, ?_⟩
    rwa [List.append_assoc]
  · rintro ⟨first, _, rfl, same, second, rest, rfl, same', others⟩
    obtain rfl : first = cs := same
    obtain rfl : second = ds := same'
    refine ⟨first ++ second, rest, (List.append_assoc ..).symm, rfl, ?_⟩
    rwa [← List.append_assoc]

theorem inRow_joinTexts (rs : List Regex) :
    InRow ((joinTexts rs).map Matches) before text after
      ↔ InRow (rs.map Matches) before text after := by
  induction rs generalizing before text with
  | nil => rfl
  | cons r rs ih =>
    have keep (r : Regex) : InRow ((r :: joinTexts rs).map Matches) before text after
        ↔ InRow ((r :: rs).map Matches) before text after := by
      simp only [List.map_cons, inRow_cons, ih]
    cases r with
    | chars cs =>
      rw [← keep, joinTexts]
      split
      · rename_i ds rest eq
        rw [eq]
        exact inRow_chars_append
      · rfl
    | _ => exact keep _

/-- **A row matches what its factors match** one after the other. -/
theorem matches_concat (rs : List Regex) :
    (concat rs).Matches before text after ↔ InRow (rs.map Matches) before text after := by
  rw [concat, matches_row, inRow_joinTexts, inRow_flatMap_factors]

theorem isProper_row {rs : List Regex} (proper : ∀ r ∈ rs, r.IsProper) : (row rs).IsProper := by
  induction rs with
  | nil => trivial
  | cons r rs ih =>
    obtain ⟨first, others⟩ := List.forall_mem_cons.1 proper
    cases rs with
    | nil => exact first
    | cons s rs => exact ⟨first, ih others⟩

theorem isProper_factors {r : Regex} (proper : r.IsProper) : ∀ s ∈ r.factors, s.IsProper := by
  induction r with
  | cat left right ih ih' =>
    exact List.forall_mem_append.2 ⟨ih proper.1, ih' proper.2⟩
  | empty => exact List.forall_mem_nil _
  | _ => exact List.forall_mem_singleton.2 proper

theorem isProper_joinTexts {rs : List Regex} (proper : ∀ r ∈ rs, r.IsProper) :
    ∀ r ∈ joinTexts rs, r.IsProper := by
  induction rs with
  | nil => exact List.forall_mem_nil _
  | cons r rs ih =>
    obtain ⟨first, others⟩ := List.forall_mem_cons.1 proper
    have rest := ih others
    cases r with
    | chars cs =>
      rw [joinTexts]
      split
      · rename_i ds rest' eq
        rw [eq] at rest
        exact List.forall_mem_cons.2 ⟨trivial, (List.forall_mem_cons.1 rest).2⟩
      · exact List.forall_mem_cons.2 ⟨first, rest⟩
    | _ => exact List.forall_mem_cons.2 ⟨first, rest⟩

theorem isProper_concat {rs : List Regex} (proper : ∀ r ∈ rs, r.IsProper) : (concat rs).IsProper := by
  refine isProper_row (isProper_joinTexts fun s mem => ?_)
  obtain ⟨r, mem, mem'⟩ := List.mem_flatMap.1 mem
  exact isProper_factors (proper r mem) s mem'

/-! ## Choices -/

theorem matches_oneOf {s : CharSet} (proper : s.IsProper) :
    (oneOf s).Matches before text after ↔ ∃ c, text = [c] ∧ s.contains c := by
  unfold oneOf
  split
  · rename_i c single
    have only := CharSet.contains_iff_of_single? proper single
    constructor
    · exact fun same => ⟨c, same, (only c).2 rfl⟩
    · rintro ⟨d, rfl, mem⟩
      rw [(only d).1 mem]
      rfl
  · rfl

theorem isProper_oneOf {s : CharSet} (proper : s.IsProper) : (oneOf s).IsProper := by
  unfold oneOf
  split
  · trivial
  · exact proper

theorem matches_choice (rs : List Regex) :
    (choice rs).Matches before text after ↔ ∃ r ∈ rs, r.Matches before text after := by
  induction rs with
  | nil => simp [choice, Matches]
  | cons r rs ih =>
    rw [List.exists_mem_cons_iff]
    cases rs with
    | nil => simp [choice]
    | cons s rs => exact or_congr_right ih

theorem isProper_choice {rs : List Regex} (proper : ∀ r ∈ rs, r.IsProper) :
    (choice rs).IsProper := by
  induction rs with
  | nil => exact List.forall_mem_nil _
  | cons r rs ih =>
    obtain ⟨first, others⟩ := List.forall_mem_cons.1 proper
    cases rs with
    | nil => exact first
    | cons s rs => exact ⟨first, ih others⟩

theorem exists_mem_branches (r : Regex) :
    (∃ s ∈ r.branches, s.Matches before text after) ↔ r.Matches before text after := by
  induction r with
  | alt left right ih ih' =>
    simp only [branches, List.mem_append, or_and_right, exists_or, ih, ih', Matches]
  | _ => simp only [branches, List.mem_singleton, exists_eq_left]

theorem exists_mem_flatMap_branches (rs : List Regex) :
    (∃ s ∈ rs.flatMap branches, s.Matches before text after)
      ↔ ∃ r ∈ rs, r.Matches before text after := by
  constructor
  · rintro ⟨s, mem, holds⟩
    obtain ⟨r, mem, mem'⟩ := List.mem_flatMap.1 mem
    exact ⟨r, mem, (exists_mem_branches r).1 ⟨s, mem', holds⟩⟩
  · rintro ⟨r, mem, holds⟩
    obtain ⟨s, mem', holds⟩ := (exists_mem_branches r).2 holds
    exact ⟨s, List.mem_flatMap.2 ⟨r, mem, mem'⟩, holds⟩

theorem isProper_branches {r : Regex} (proper : r.IsProper) : ∀ s ∈ r.branches, s.IsProper := by
  induction r with
  | alt left right ih ih' => exact List.forall_mem_append.2 ⟨ih proper.1, ih' proper.2⟩
  | _ => exact List.forall_mem_singleton.2 proper

/-- A set that stands for an expression has just the characters that it matches. -/
structure Stands (r : Regex) (s : CharSet) : Prop where
  /-- The set is proper. -/
  proper : s.IsProper
  /-- It has the characters that the expression matches. -/
  matches_iff : ∀ before text after, r.Matches before text after ↔ ∃ c, text = [c] ∧ s.contains c

theorem stands_of_charSet? {r : Regex} {s : CharSet} (stands : r.charSet? = some s) : r.Stands s := by
  unfold charSet? at stands
  split at stands
  · rename_i c
    obtain rfl := Option.some.inj stands
    refine ⟨CharSet.isProper_singleton c, fun before text after => ?_⟩
    simp [Matches]
  · cases stands

theorem stands_of_set? {r : Regex} {s : CharSet} (proper : r.IsProper) (stands : r.set? = some s) :
    r.Stands s := by
  unfold set? at stands
  split at stands
  · obtain rfl := Option.some.inj stands
    exact ⟨proper, fun before text after => Iff.rfl⟩
  · cases stands

theorem exists_of_mapM {α β : Type} {f : α → Option β} {as : List α} {bs : List β}
    (all : as.mapM f = some bs) :
    (∀ b ∈ bs, ∃ a ∈ as, f a = some b) ∧ ∀ a ∈ as, ∃ b ∈ bs, f a = some b := by
  induction as generalizing bs with
  | nil =>
    obtain rfl := Option.some.inj all
    exact ⟨List.forall_mem_nil _, List.forall_mem_nil _⟩
  | cons a as ih =>
    rw [List.mapM_cons] at all
    obtain ⟨b, first, all⟩ := Option.bind_eq_some_iff.1 all
    obtain ⟨bs, others, all⟩ := Option.bind_eq_some_iff.1 all
    obtain rfl := Option.some.inj all
    obtain ⟨left, right⟩ := ih others
    constructor
    · refine List.forall_mem_cons.2 ⟨⟨a, List.mem_cons_self, first⟩, fun b mem => ?_⟩
      obtain ⟨a, mem, is⟩ := left b mem
      exact ⟨a, List.mem_cons_of_mem _ mem, is⟩
    · refine List.forall_mem_cons.2 ⟨⟨b, List.mem_cons_self, first⟩, fun a mem => ?_⟩
      obtain ⟨b, mem, is⟩ := right a mem
      exact ⟨b, List.mem_cons_of_mem _ mem, is⟩

/-- Whether an expression is proper and matches what one of a list matches. -/
structure Chooses (r : Regex) (rs : List Regex) : Prop where
  /-- It is proper. -/
  proper : r.IsProper
  /-- It matches what one of the others matches. -/
  matches_iff : ∀ before text after,
    r.Matches before text after ↔ ∃ s ∈ rs, s.Matches before text after

/-- Of expressions that sets stand for the union of the sets chooses. -/
theorem chooses_oneOf {rs : List Regex} {set? : Regex → Option CharSet} {sets : List CharSet}
    (stands : ∀ r ∈ rs, ∀ s, set? r = some s → r.Stands s) (all : rs.mapM set? = some sets) :
    (oneOf (.unionOfList sets)).Chooses rs := by
  obtain ⟨each, each'⟩ := exists_of_mapM all
  have proper : (CharSet.unionOfList sets).IsProper := by
    refine CharSet.isProper_unionOfList fun s mem => ?_
    obtain ⟨r, mem', is⟩ := each s mem
    exact (stands r mem' s is).proper
  refine ⟨isProper_oneOf proper, fun before text after => ?_⟩
  rw [matches_oneOf proper]
  simp only [CharSet.contains_unionOfList, List.any_eq_true]
  constructor
  · rintro ⟨c, same, s, mem, has⟩
    obtain ⟨r, mem', is⟩ := each s mem
    exact ⟨r, mem', ((stands r mem' s is).matches_iff ..).2 ⟨c, same, has⟩⟩
  · rintro ⟨r, mem, holds⟩
    obtain ⟨s, mem', is⟩ := each' r mem
    obtain ⟨c, same, has⟩ := ((stands r mem s is).matches_iff ..).1 holds
    exact ⟨c, same, s, mem', has⟩

theorem chooses_flatAlternation {rs : List Regex} (proper : ∀ r ∈ rs, r.IsProper) :
    (flatAlternation rs).Chooses rs := by
  have proper' : ∀ r ∈ rs.flatMap branches, r.IsProper := by
    intro s mem
    obtain ⟨r, mem, mem'⟩ := List.mem_flatMap.1 mem
    exact isProper_branches (proper r mem) s mem'
  have flat : (flatAlternation rs).Chooses (rs.flatMap branches) := by
    unfold flatAlternation
    dsimp only
    split
    · rename_i all
      exact chooses_oneOf (fun r _ s => stands_of_charSet?) all
    · rename_i all
      exact chooses_oneOf (fun r mem s => stands_of_set? (proper' r mem)) all
    · exact ⟨isProper_choice proper', fun before text after => matches_choice _⟩
  exact ⟨flat.proper, fun before text after =>
    (flat.matches_iff ..).trans (exists_mem_flatMap_branches rs)⟩

/-! ## Common factors -/

theorem take_eq_of_le_commonLength {rs ss : List Regex} {n : Nat} (le : n ≤ commonLength rs ss) :
    ss.take n = rs.take n := by
  induction rs generalizing ss n with
  | nil =>
    rw [commonLength, Nat.le_zero] at le
    rw [le, List.take_zero, List.take_zero]
    exact nofun
  | cons r rs ih =>
    cases ss with
    | nil =>
      rw [commonLength, Nat.le_zero] at le
      rw [le, List.take_zero, List.take_zero]
      exact nofun
    | cons s ss =>
      rw [commonLength] at le
      split at le
      · rename_i same
        cases n with
        | zero => rfl
        | succ n => rw [List.take_succ_cons, List.take_succ_cons, same, ih (Nat.le_of_succ_le_succ le)]
      · rw [Nat.le_zero.1 le, List.take_zero, List.take_zero]

theorem foldl_min_le {α : Type} (f : α → Nat) (xs : List α) (least : Nat) :
    xs.foldl (fun n x => min n (f x)) least ≤ least
      ∧ ∀ x ∈ xs, xs.foldl (fun n x => min n (f x)) least ≤ f x := by
  induction xs generalizing least with
  | nil => exact ⟨Nat.le_refl _, List.forall_mem_nil _⟩
  | cons x xs ih =>
    obtain ⟨le, each⟩ := ih (min least (f x))
    exact ⟨Nat.le_trans le (Nat.min_le_left ..),
      List.forall_mem_cons.2 ⟨Nat.le_trans le (Nat.min_le_right ..), each⟩⟩

/-- Rows that begin with the same factors match what these match, and then what one of the rows
goes on with. -/
theorem inRow_common {front : List Regex} {rows : List (List Regex)} {rest : Regex} {n : Nat}
    (common : ∀ row ∈ rows, row.take n = front)
    (chooses : rest.Chooses (rows.map fun row => concat (row.drop n))) :
    InRow ((front ++ [rest]).map Matches) before text after
      ↔ ∃ row ∈ rows, InRow (row.map Matches) before text after := by
  have split (row : List Regex) (mem : row ∈ rows) : InRow (row.map Matches) before text after
      ↔ ∃ first last, text = first ++ last ∧ InRow (front.map Matches) before first (last ++ after)
        ∧ (concat (row.drop n)).Matches (before ++ first) last after := by
    have parts : row.map Matches = front.map Matches ++ (row.drop n).map Matches := by
      rw [← List.map_append, ← common row mem, List.take_append_drop]
    rw [parts, inRow_append]
    simp only [matches_concat]
  rw [List.map_append, inRow_append, List.map_singleton]
  simp only [inRow_singleton, chooses.matches_iff]
  constructor
  · rintro ⟨first, last, same, holds, r, mem, holds'⟩
    obtain ⟨row, inside, rfl⟩ := List.mem_map.1 mem
    exact ⟨row, inside, (split row inside).2 ⟨first, last, same, holds, holds'⟩⟩
  · rintro ⟨row, mem, holds⟩
    obtain ⟨first, last, same, holds, holds'⟩ := (split row mem).1 holds
    exact ⟨first, last, same, holds, _, List.mem_map_of_mem mem, holds'⟩

/-- **A choice matches what one of its alternatives matches.** -/
theorem chooses_alternation {rs : List Regex} (proper : ∀ r ∈ rs, r.IsProper) :
    (alternation rs).Chooses rs := by
  unfold alternation
  dsimp only
  split
  · rename_i none
    -- every expression has a branch, so there is none here
    have empty : rs.flatMap branches = [] := List.map_eq_nil_iff.1 none
    have nothing (before text after : List Char) : ¬ ∃ r ∈ rs, r.Matches before text after := by
      rw [← exists_mem_flatMap_branches, empty]
      rintro ⟨r, mem, -⟩
      cases mem
    have flat := chooses_flatAlternation (List.forall_mem_nil IsProper)
    refine ⟨flat.proper, fun before text after => ?_⟩
    rw [flat.matches_iff]
    exact iff_of_false (by rintro ⟨r, mem, -⟩; cases mem) (nothing before text after)
  · rename_i first others rows
    split
    · exact chooses_flatAlternation proper
    · rw [rows]
      have properRows : ∀ row ∈ first :: others, ∀ r ∈ row, r.IsProper := by
        rw [← rows]
        intro row mem
        obtain ⟨s, inside, rfl⟩ := List.mem_map.1 mem
        obtain ⟨r, mem', mem''⟩ := List.mem_flatMap.1 inside
        exact isProper_factors (isProper_branches (proper r mem') s mem'')
      generalize length : others.foldl (fun n other => min n (commonLength first other)) first.length
        = n
      -- all rows start with the same factors, which are put before the alternation of the rests
      have common : ∀ row ∈ first :: others, row.take n = first.take n := by
        refine List.forall_mem_cons.2 ⟨rfl, fun row mem => take_eq_of_le_commonLength ?_⟩
        rw [← length]
        exact (foldl_min_le (commonLength first) others first.length).2 row mem
      have rest : (flatAlternation ((first :: others).map fun r => concat (r.drop n))).Chooses
          ((first :: others).map fun r => concat (r.drop n)) := by
        refine chooses_flatAlternation fun r mem => ?_
        obtain ⟨row, inside, rfl⟩ := List.mem_map.1 mem
        exact isProper_concat fun r mem' => properRows row inside r (List.mem_of_mem_drop mem')
      refine ⟨isProper_concat (List.forall_mem_append.2 ⟨fun r mem => ?_,
        List.forall_mem_singleton.2 rest.proper⟩), fun before text after => ?_⟩
      · exact properRows first List.mem_cons_self r (List.mem_of_mem_take mem)
      · rw [matches_concat, inRow_common common rest, ← rows, ← exists_mem_flatMap_branches]
        constructor
        · rintro ⟨row, mem, holds⟩
          obtain ⟨s, inside, rfl⟩ := List.mem_map.1 mem
          exact ⟨s, inside, (inRow_factors s).1 holds⟩
        · rintro ⟨s, mem, holds⟩
          exact ⟨_, List.mem_map_of_mem mem, (inRow_factors s).2 holds⟩

/-! ## Repetitions -/

/-- What has a match only of the empty text matches no other. -/
theorem eq_nil_of_isSilent {r : Regex} (silent : r.isSilent) (holds : r.Matches before text after) :
    text = [] := by
  induction r generalizing before text after with
  | empty => exact holds
  | look kind => exact holds.1
  | chars cs => exact holds.trans (List.isEmpty_iff.1 silent)
  | one set => cases silent
  | cat left right ih ih' =>
    obtain ⟨first, rest, rfl, holds, holds'⟩ := holds
    rw [isSilent, Bool.and_eq_true] at silent
    rw [ih silent.1 holds, ih' silent.2 holds']
    rfl
  | alt left right ih ih' =>
    rw [isSilent, Bool.and_eq_true] at silent
    rcases holds with holds | holds
    · exact ih silent.1 holds
    · exact ih' silent.2 holds
  | capture place body ih => exact ih silent holds
  | repeated low high greedy body ih =>
    obtain ⟨n, -, -, holds⟩ := holds
    induction n generalizing before text with
    | zero => exact holds
    | succ n ih' =>
      obtain ⟨first, rest, rfl, holds, others⟩ := holds
      rw [ih silent holds, ih' others]
      rfl

/-- Rounds of what matches only the empty text are like one round. -/
theorem inRow_replicate_of_silent {r : Regex} (silent : r.isSilent) (n : Nat) :
    InRow (List.replicate n r.Matches) before text after
      ↔ text = [] ∧ (n = 0 ∨ r.Matches before [] after) := by
  induction n generalizing before text with
  | zero => exact ⟨fun holds => ⟨holds, .inl rfl⟩, fun holds => holds.1⟩
  | succ n ih =>
    rw [List.replicate_succ, inRow_cons]
    constructor
    · rintro ⟨first, rest, rfl, holds, others⟩
      obtain rfl := eq_nil_of_isSilent silent holds
      obtain ⟨rfl, -⟩ := ih.1 others
      exact ⟨rfl, .inr holds⟩
    · rintro ⟨rfl, none | holds⟩
      · cases none
      · refine ⟨[], [], rfl, holds, ih.2 ⟨rfl, .inr ?_⟩⟩
        rwa [List.append_nil]

theorem matches_repeated_of_silent {low : Nat} {high : Option Nat} {greedy : Bool} {body : Regex}
    (silent : body.isSilent) : (repeated low high greedy body).Matches before text after
      ↔ text = [] ∧ (low = 0 ∨ body.Matches before [] after) := by
  simp only [Matches, inRow_replicate_of_silent silent]
  constructor
  · rintro ⟨n, least, -, rfl, none | holds⟩
    · exact ⟨rfl, .inl (Nat.le_zero.1 (none ▸ least))⟩
    · exact ⟨rfl, .inr holds⟩
  · rintro ⟨rfl, holds⟩
    exact ⟨low, Nat.le_refl _, fun _ _ => Nat.le_max_left .., rfl, holds⟩

/-- A repetition of no rounds, or of one, is made as simple as it can be. -/
theorem matches_simplified {low : Nat} {high : Option Nat} (le : ∀ most ∈ high, low ≤ most)
    (greedy : Bool) (body : Regex) :
    (if high = some 0 then empty else if low = 1 ∧ high = some 1 then body
        else repeated low high greedy body).Matches before text after
      ↔ (repeated low high greedy body).Matches before text after := by
  split
  · rename_i none
    obtain rfl := none
    obtain rfl := Nat.le_zero.1 (le 0 rfl)
    constructor
    · exact fun same => ⟨0, Nat.le_refl _, fun _ _ => Nat.zero_le _, same⟩
    · rintro ⟨n, -, most, holds⟩
      obtain rfl := Nat.le_zero.1 (most 0 rfl)
      exact holds
  · split
    · rename_i once
      obtain ⟨rfl, rfl⟩ := once
      constructor
      · exact fun holds => ⟨1, Nat.le_refl _, fun _ _ => Nat.le_max_left .., inRow_singleton.2 holds⟩
      · rintro ⟨n, least, most, holds⟩
        obtain rfl : n = 1 := Nat.le_antisymm (most 1 rfl) least
        exact inRow_singleton.1 holds
    · rfl

/-- **A repetition matches what so many rounds match.** -/
theorem matches_repetition {low : Nat} {high : Option Nat} (le : ∀ most ∈ high, low ≤ most)
    (greedy : Bool) (body : Regex) : (repetition low high greedy body).Matches before text after
      ↔ (repeated low high greedy body).Matches before text after := by
  unfold repetition
  dsimp only
  cases silent : body.isSilent with
  | false => exact matches_simplified le greedy body
  | true =>
    have le' : ∀ most ∈ some (min (high.getD 1) 1), min low 1 ≤ most := by
      intro most mem
      obtain rfl := Option.some.inj mem
      cases high with
      | none => exact Nat.le_min.2 ⟨Nat.min_le_right .., Nat.min_le_right ..⟩
      | some most => exact Nat.le_min.2 ⟨Nat.le_trans (Nat.min_le_left ..) (le most rfl), Nat.min_le_right ..⟩
    rw [if_pos rfl, if_pos rfl, matches_simplified le', matches_repeated_of_silent silent,
      matches_repeated_of_silent silent]
    have none : min low 1 = 0 ↔ low = 0 := by omega
    rw [none]

theorem isProper_repetition {low : Nat} {high : Option Nat} {greedy : Bool} {body : Regex}
    (proper : body.IsProper) : (repetition low high greedy body).IsProper := by
  have simplified (low : Nat) (high : Option Nat) : (if high = some 0 then empty
      else if low = 1 ∧ high = some 1 then body else repeated low high greedy body).IsProper := by
    split
    · trivial
    · split
      · exact proper
      · exact proper
  exact simplified _ _

end Regex

end Polyglot
