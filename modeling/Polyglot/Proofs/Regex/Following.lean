import Mathlib
import Polyglot.Proofs.Regex.Runs

/-!
# Where a program finds a match

A text is followed through a program in all ways at once: at each place, the steps that can be
reached there are entered, none of them twice. What is known while the steps are worked off is
that those entered are closed, up to those still in hand (`Program.Explores`); each step is entered
at most once and leads to at most two others, so the allowance lasts. At the end the steps to go
on with are all those after a step that can be reached and takes the next character
(`Program.explored_advance`).

From place to place, a match is found just if there is a run to a step that accepts
(`Program.isSome_endFrom`), and so a program that was made from an expression finds a match in a
text just if the expression matches somewhere in it (`isMatch_program_iff`). An expression that
looks for the start of the text first is only tried there, and can only match there.
-/

namespace Polyglot.Regex

open Relation (ReflTransGen)

namespace Program

/-- Whether a step leads to another one without a character. -/
def Passes (p : Program) (before after : Option Char) (i j : Nat) : Prop :=
  ∃ step, p.steps[i]? = some step ∧ j ∈ step.leadsTo before after i

/-- Whether a step can be reached from one of some others without a character. -/
def Reaches (p : Program) (before after : Option Char) (starts : List Nat) (i : Nat) : Prop :=
  ∃ s ∈ starts, ReflTransGen (p.Passes before after) s i

/-- Whether a step can be reached and takes the next character. -/
def Takes? (p : Program) (before after : Option Char) (starts : List Nat) (i : Nat) : Prop :=
  p.Reaches before after starts i ∧ ∃ set, p.steps[i]? = some (.take set) ∧ after.any set.contains

/-- What the steps to go on with should be, and whether a match is complete. -/
structure Explored (p : Program) (before after : Option Char) (starts : List Nat)
    (result : List Nat × Bool) : Prop where
  /-- The steps to go on with come after those that take the next character. -/
  mem_next : ∀ j ∈ result.1, ∃ i, p.Takes? before after starts i ∧ j = i + 1
  /-- A complete match was reached. -/
  complete : result.2 = true → ∃ i, p.Reaches before after starts i ∧ p.steps[i]? = some .accept
  /-- Otherwise none can be reached, -/
  incomplete : result.2 = false → ∀ i, p.Reaches before after starts i → p.steps[i]? ≠ some .accept
  /-- and no step to go on with is missing. -/
  next_mem : result.2 = false → ∀ i, p.Takes? before after starts i → i + 1 ∈ result.1

/-- What is known while steps are worked off: some are in hand, some were entered, and some are
to go on with. -/
structure Explores (p : Program) (before after : Option Char) (starts : List Nat)
    (hand : List Nat) (entered : Std.TreeSet Nat) (next : List Nat) : Prop where
  /-- Those in hand can be reached. -/
  reached : ∀ i ∈ hand, p.Reaches before after starts i
  /-- Those to go on with come after steps that take the next character. -/
  mem_next : ∀ j ∈ next, ∃ i, p.Takes? before after starts i ∧ j = i + 1
  /-- No start was forgotten. -/
  kept : ∀ s ∈ starts, s ∈ hand ∨ entered.contains s
  /-- Where those lead that were entered was entered too, or is in hand. -/
  closed : ∀ i, entered.contains i → ∀ j, p.Passes before after i j → j ∈ hand ∨ entered.contains j
  /-- None that was entered accepts. -/
  inside : ∀ i, entered.contains i → p.steps[i]? ≠ some .accept
  /-- The next character was taken wherever one that was entered takes it. -/
  taken : ∀ i, entered.contains i → ∀ set, p.steps[i]? = some (.take set) →
    after.any set.contains → i + 1 ∈ next

variable {p : Program} {before after : Option Char} {starts hand next : List Nat}
  {entered : Std.TreeSet Nat} {i : Nat}

theorem contains_insert_iff {k : Nat} :
    (entered.insert i).contains k ↔ k = i ∨ entered.contains k := by
  rw [Std.TreeSet.contains_insert, Bool.or_eq_true, beq_iff_eq, Std.LawfulEqCmp.compare_eq_iff_eq,
    eq_comm]

namespace Explores

theorem start : p.Explores before after starts starts ∅ [] where
  reached i mem := ⟨i, mem, .refl⟩
  mem_next := List.forall_mem_nil _
  kept s mem := .inl mem
  closed := by simp
  inside := by simp
  taken := by simp

/-- A step that was entered before is not entered again. -/
theorem drop (h : p.Explores before after starts (i :: hand) entered next)
    (known : entered.contains i) : p.Explores before after starts hand entered next where
  reached := (List.forall_mem_cons.1 h.reached).2
  mem_next := h.mem_next
  kept s mem := by
    rcases h.kept s mem with mem | mem
    · rcases List.mem_cons.1 mem with rfl | mem
      · exact .inr known
      · exact .inl mem
    · exact .inr mem
  closed k mem j passes := by
    rcases h.closed k mem j passes with mem | mem
    · rcases List.mem_cons.1 mem with rfl | mem
      · exact .inr known
      · exact .inl mem
    · exact .inr mem
  inside := h.inside
  taken := h.taken

/-- A step is entered, and what it leads to comes to hand. -/
theorem enter (h : p.Explores before after starts (i :: hand) entered next) {pushed next' : List Nat}
    (leads : ∀ j, p.Passes before after i j ↔ j ∈ pushed) (goes : p.steps[i]? ≠ some .accept)
    (sub : ∀ j ∈ next, j ∈ next') (takes : ∀ set, p.steps[i]? = some (.take set) →
      after.any set.contains → i + 1 ∈ next')
    (only : ∀ j ∈ next', j ∈ next ∨ j = i + 1 ∧ p.Takes? before after starts i) :
    p.Explores before after starts (pushed ++ hand) (entered.insert i) next' := by
  obtain ⟨reached, reachable⟩ := List.forall_mem_cons.1 h.reached
  -- nothing is lost: the step in hand is now one that was entered
  have moved {j : Nat} (mem : j ∈ i :: hand ∨ entered.contains j) :
      j ∈ pushed ++ hand ∨ (entered.insert i).contains j := by
    rw [contains_insert_iff, List.mem_append]
    rcases mem with mem | mem
    · rcases List.mem_cons.1 mem with rfl | mem
      · exact .inr (.inl rfl)
      · exact .inl (.inr mem)
    · exact .inr (.inr mem)
  constructor
  · refine List.forall_mem_append.2 ⟨fun j mem => ?_, reachable⟩
    obtain ⟨s, mem', path⟩ := reached
    exact ⟨s, mem', path.tail ((leads j).2 mem)⟩
  · intro j mem
    rcases only j mem with mem | ⟨rfl, takes⟩
    · exact h.mem_next j mem
    · exact ⟨i, takes, rfl⟩
  · exact fun s mem => moved (h.kept s mem)
  · intro k mem j passes
    rcases contains_insert_iff.1 mem with rfl | mem
    · exact .inl (List.mem_append_left _ ((leads j).1 passes))
    · exact moved (h.closed k mem j passes)
  · intro k mem
    rcases contains_insert_iff.1 mem with rfl | mem
    · exact goes
    · exact h.inside k mem
  · intro k mem set here has
    rcases contains_insert_iff.1 mem with rfl | mem
    · exact takes set here has
    · exact sub _ (h.taken k mem set here has)

/-- Once nothing is in hand, all that can be reached was entered. -/
theorem contains_of_reaches (h : p.Explores before after starts [] entered next)
    (reaches : p.Reaches before after starts i) : entered.contains i := by
  obtain ⟨s, mem, path⟩ := reaches
  induction path with
  | refl => exact (h.kept s mem).resolve_left List.not_mem_nil
  | tail _ passes ih => exact (h.closed _ ih _ passes).resolve_left List.not_mem_nil

theorem explored (h : p.Explores before after starts [] entered next) :
    p.Explored before after starts (next.reverse, false) where
  mem_next j mem := h.mem_next j (List.mem_reverse.1 mem)
  complete := nofun
  incomplete _ i reaches := h.inside i (h.contains_of_reaches reaches)
  next_mem _ i takes := by
    obtain ⟨reaches, set, here, has⟩ := takes
    exact List.mem_reverse.2 (h.taken i (h.contains_of_reaches reaches) set here has)

theorem accepted (h : p.Explores before after starts (i :: hand) entered next)
    (here : p.steps[i]? = some .accept) : p.Explored before after starts (next.reverse, true) where
  mem_next j mem := h.mem_next j (List.mem_reverse.1 mem)
  complete _ := ⟨i, (List.forall_mem_cons.1 h.reached).1, here⟩
  incomplete := nofun
  next_mem := nofun

end Explores

/-- How many steps of a program were not entered yet. -/
def unentered (p : Program) (entered : Std.TreeSet Nat) : Nat :=
  ((Finset.range p.steps.size).filter fun i => entered.contains i = false).card

theorem filter_insert_subset (p : Program) (entered : Std.TreeSet Nat) (i : Nat) :
    (Finset.range p.steps.size).filter (fun k => (entered.insert i).contains k = false)
      ⊆ (Finset.range p.steps.size).filter fun k => entered.contains k = false := by
  intro k mem
  obtain ⟨inside, fresh⟩ := Finset.mem_filter.1 mem
  rw [← Bool.not_eq_true, contains_insert_iff, not_or, Bool.not_eq_true] at fresh
  exact Finset.mem_filter.2 ⟨inside, fresh.2⟩

theorem unentered_insert_le (p : Program) (entered : Std.TreeSet Nat) (i : Nat) :
    p.unentered (entered.insert i) ≤ p.unentered entered :=
  Finset.card_le_card (filter_insert_subset p entered i)

/-- A step of the program that is entered is one less. -/
theorem unentered_insert_lt {step : Step} (here : p.steps[i]? = some step)
    (fresh : entered.contains i = false) : p.unentered (entered.insert i) < p.unentered entered := by
  have inside : i < p.steps.size := (Array.getElem?_eq_some_iff.1 here).1
  refine Finset.card_lt_card ((Finset.ssubset_iff_of_subset (filter_insert_subset p entered i)).2
    ⟨i, Finset.mem_filter.2 ⟨Finset.mem_range.2 inside, fresh⟩, fun mem => ?_⟩)
  have known := (Finset.mem_filter.1 mem).2
  rw [contains_insert_iff.2 (.inl rfl)] at known
  cases known

theorem unentered_empty_le (p : Program) : p.unentered ∅ ≤ p.steps.size :=
  (Finset.card_filter_le _ _).trans (Finset.card_range _).le

theorem passes_iff {step : Step} (here : p.steps[i]? = some step) {j : Nat} :
    p.Passes before after i j ↔ j ∈ step.leadsTo before after i := by
  constructor
  · rintro ⟨step', here', leads⟩
    rwa [Option.some.inj (here.symm.trans here')]
  · exact fun leads => ⟨step, here, leads⟩

/-- A step that takes no character is entered. -/
theorem Explores.enter_silent (h : p.Explores before after starts (i :: hand) entered next) {step : Step}
    (here : p.steps[i]? = some step) (silent : step ≠ .accept ∧ ∀ set, step ≠ .take set) :
    p.Explores before after starts (step.leadsTo before after i ++ hand) (entered.insert i) next := by
  refine h.enter (fun j => passes_iff here) (fun here' => ?_) (fun j mem => mem) (fun set here' => ?_)
    fun j mem => .inl mem
  · exact silent.1 (Option.some.inj (here.symm.trans here'))
  · exact absurd (Option.some.inj (here.symm.trans here')) (silent.2 set)

/-- **Following** finds all there is to go on with, as long as its allowance is enough. -/
theorem explored_follow {fuel : Nat} (h : p.Explores before after starts hand entered next)
    (enough : hand.length + 2 * p.unentered entered < fuel) :
    p.Explored before after starts (p.follow before after fuel hand entered next) := by
  -- each round drops an index in hand, or enters one and puts two in hand at most
  induction fuel generalizing hand entered next with
  | zero => cases enough
  | succ fuel ih =>
    cases hand with
    | nil => exact h.explored
    | cons i hand =>
      rw [List.length_cons] at enough
      rw [follow]
      cases known : entered.contains i with
      | true =>
        rw [if_pos rfl]
        exact ih (h.drop known) (by omega)
      | false =>
        rw [if_neg Bool.false_ne_true]
        dsimp only
        cases here : p.steps[i]? with
        | none =>
          have fewer := unentered_insert_le p entered i
          have leads (j : Nat) : p.Passes before after i j ↔ j ∈ [] := by simp [Passes, here]
          exact ih (h.enter leads (by simp [here]) (fun j mem => mem) (by simp [here])
            fun j mem => .inl mem) (by omega)
        | some step =>
          have fewer := unentered_insert_lt here known
          cases step with
          | take set =>
            have leads (j : Nat) : p.Passes before after i j ↔ j ∈ [] := passes_iff here
            dsimp only
            split
            · rename_i has
              have takes : p.Takes? before after starts i :=
                ⟨(List.forall_mem_cons.1 h.reached).1, set, here, has⟩
              refine ih (h.enter leads (by simp [here]) (fun j mem => List.mem_cons_of_mem _ mem)
                (fun _ _ _ => List.mem_cons_self) fun j mem => ?_) (by omega)
              rcases List.mem_cons.1 mem with rfl | mem
              · exact .inr ⟨rfl, takes⟩
              · exact .inl mem
            · rename_i hasNot
              refine ih (h.enter leads (by simp [here]) (fun j mem => mem) (fun set' here' has => ?_)
                fun j mem => .inl mem) (by omega)
              obtain rfl := Step.take.inj (Option.some.inj (here.symm.trans here'))
              exact absurd has hasNot
          | look kind =>
            have entering := h.enter_silent here (by simp)
            rw [Step.leadsTo] at entering
            dsimp only
            split at entering
            · rename_i holds
              rw [if_pos holds]
              exact ih entering (by rw [List.length_cons]; omega)
            · rename_i holdsNot
              rw [if_neg holdsNot]
              exact ih entering (by omega)
          | jump offset =>
            exact ih (h.enter_silent here (by simp))
              (by rw [List.length_cons]; omega)
          | fork preferred other =>
            exact ih (h.enter_silent here (by simp))
              (by rw [List.length_cons, List.length_cons]; omega)
          | accept => exact h.accepted here

/-- **Between two characters**, the steps to go on with are those after a step that can be reached
and takes the second. -/
theorem explored_advance (p : Program) (before after : Option Char) (starts : List Nat) :
    p.Explored before after starts (p.advance before after starts) := by
  have few := unentered_empty_le p
  exact explored_follow .start (by omega)

/-! ## From place to place -/

variable {left rest : List Char}

/-- A run from a step starts by reaching, at the same place, one that accepts or one that takes the
next character. -/
theorem exists_accepts_iff : (∃ n, p.Accepts n i left rest)
    ↔ ∃ j, ReflTransGen (p.Passes left.getLast? rest.head?) i j ∧ (p.steps[j]? = some .accept
      ∨ ∃ set c more, p.steps[j]? = some (.take set) ∧ set.contains c ∧ rest = c :: more
        ∧ ∃ n, p.Accepts n (j + 1) (left ++ [c]) more) := by
  constructor
  · rintro ⟨n, accepts⟩
    induction accepts with
    | done here => exact ⟨_, .refl, .inl here⟩
    | pass here leads _ ih =>
      obtain ⟨j, path, ends⟩ := ih
      exact ⟨j, path.head ⟨_, here, leads⟩, ends⟩
    | take here has accepts _ => exact ⟨_, .refl, .inr ⟨_, _, _, here, has, rfl, _, accepts⟩⟩
  · rintro ⟨j, path, ends⟩
    have last : ∃ n, p.Accepts n j left rest := by
      rcases ends with here | ⟨set, c, more, here, has, rfl, n, accepts⟩
      · exact ⟨0, .done here⟩
      · exact ⟨n + 1, .take here has accepts⟩
    induction path using ReflTransGen.head_induction_on with
    | refl => exact last
    | head passes _ ih =>
      obtain ⟨step, here, leads⟩ := passes
      obtain ⟨n, accepts⟩ := ih
      exact ⟨n + 1, .pass here leads accepts⟩

/-- The same for runs from some steps. -/
theorem exists_mem_accepts_iff : (∃ i ∈ starts, ∃ n, p.Accepts n i left rest)
    ↔ (∃ j, p.Reaches left.getLast? rest.head? starts j ∧ p.steps[j]? = some .accept)
      ∨ ∃ j, p.Takes? left.getLast? rest.head? starts j
        ∧ ∃ c more, rest = c :: more ∧ ∃ n, p.Accepts n (j + 1) (left ++ [c]) more := by
  constructor
  · rintro ⟨i, mem, accepts⟩
    obtain ⟨j, path, here | ⟨set, c, more, here, has, rfl, goes⟩⟩ := exists_accepts_iff.1 accepts
    · exact .inl ⟨j, ⟨i, mem, path⟩, here⟩
    · exact .inr ⟨j, ⟨⟨i, mem, path⟩, set, here, has⟩, c, more, rfl, goes⟩
  · rintro (⟨j, ⟨i, mem, path⟩, here⟩ | ⟨j, ⟨⟨i, mem, path⟩, set, here, has⟩, c, more, rfl, accepts⟩)
    · exact ⟨i, mem, exists_accepts_iff.2 ⟨j, path, .inl here⟩⟩
    · exact ⟨i, mem, exists_accepts_iff.2 ⟨j, path, .inr ⟨set, c, more, here, has, rfl, accepts⟩⟩⟩

/-- **A match is found** from some steps on just if a run from one of them accepts, unless one was
found before. -/
theorem isSome_endFrom (position : Nat) (best : Option Nat) :
    (p.endFrom left.getLast? starts position best rest).isSome
      ↔ best.isSome ∨ ∃ i ∈ starts, ∃ n, p.Accepts n i left rest := by
  induction rest generalizing left starts position best with
  | nil =>
    have explored := explored_advance p left.getLast? none starts
    rw [endFrom, exists_mem_accepts_iff]
    cases complete : (p.advance left.getLast? none starts).2 with
    | true => simp [explored.complete complete]
    | false =>
      have none := explored.incomplete complete
      simp only [Bool.false_eq_true, ↓reduceIte, List.head?_nil]
      constructor
      · exact .inl
      · rintro (found | ⟨j, reaches, here⟩ | ⟨j, -, c, more, eq, -⟩)
        · exact found
        · exact absurd here (none j reaches)
        · cases eq
  | cons c rest ih =>
    have explored := explored_advance p left.getLast? (some c) starts
    rw [endFrom]
    generalize p.advance left.getLast? (some c) starts = result at explored
    obtain ⟨next, complete⟩ := result
    -- from here on it is as from the steps to go on with
    have goes : (if next.isEmpty = true then if complete = true then some position else best
          else p.endFrom (some c) next (position + 1) (if complete = true then some position else best)
            rest).isSome
        ↔ (if complete = true then some position else best).isSome
          ∨ ∃ i ∈ next, ∃ n, p.Accepts n i (left ++ [c]) rest := by
      split
      · rename_i empty
        rw [List.isEmpty_iff.1 empty]
        simp
      · have before : some c = (left ++ [c]).getLast? := List.getLast?_concat.symm
        rw [before]
        exact ih _ _
    refine goes.trans ?_
    rw [@exists_mem_accepts_iff p starts left (c :: rest)]
    cases complete with
    | true => simp [explored.complete rfl]
    | false =>
      have none := explored.incomplete rfl
      simp only [Bool.false_eq_true, ↓reduceIte]
      refine or_congr_right ?_
      constructor
      · rintro ⟨i, mem, accepts⟩
        obtain ⟨j, takes, rfl⟩ := explored.mem_next i mem
        exact .inr ⟨j, takes, c, rest, rfl, accepts⟩
      · rintro (⟨j, reaches, here⟩ | ⟨j, takes, d, more, eq, accepts⟩)
        · exact absurd here (none j reaches)
        · obtain ⟨rfl, rfl⟩ := List.cons.inj eq
          exact ⟨j + 1, explored.next_mem rfl j takes, accepts⟩

theorem isSome_endAt? (position : Nat) :
    (p.endAt? left.getLast? position rest).isSome ↔ ∃ n, p.Accepts n 0 left rest := by
  rw [endAt?, isSome_endFrom]
  simp

theorem isSome_findFrom (position : Nat) : (p.findFrom left.getLast? position rest).isSome
    ↔ ∃ first more, rest = first ++ more ∧ ∃ n, p.Accepts n 0 (left ++ first) more := by
  induction rest generalizing left position with
  | nil =>
    rw [findFrom, Option.isSome_map, isSome_endAt?]
    constructor
    · exact fun accepts => ⟨[], [], rfl, by rwa [List.append_nil]⟩
    · rintro ⟨first, more, eq, accepts⟩
      obtain ⟨rfl, rfl⟩ := List.append_eq_nil_iff.1 eq.symm
      rwa [List.append_nil] at accepts
  | cons c rest ih =>
    have here : (p.endAt? left.getLast? position (c :: rest)).isSome
        ↔ ∃ n, p.Accepts n 0 left (c :: rest) := isSome_endAt? position
    have later : (p.findFrom (some c) (position + 1) rest).isSome
        ↔ ∃ first more, rest = first ++ more ∧ ∃ n, p.Accepts n 0 (left ++ [c] ++ first) more := by
      have before : some c = (left ++ [c]).getLast? := List.getLast?_concat.symm
      rw [before]
      exact ih _
    -- a match starts at this place, or else further on
    rw [findFrom]
    constructor
    · intro found
      split at found
      · rename_i eq
        rw [eq] at here
        exact ⟨[], c :: rest, rfl, by rw [List.append_nil]; exact here.1 rfl⟩
      · obtain ⟨first, more, rfl, accepts⟩ := later.1 found
        exact ⟨c :: first, more, rfl, by rwa [List.append_cons]⟩
    · rintro ⟨first, more, eq, accepts⟩
      split
      · rfl
      · rename_i none
        cases first with
        | nil =>
          obtain rfl : c :: rest = more := eq
          rw [List.append_nil] at accepts
          rw [none] at here
          exact absurd (here.2 accepts) Bool.false_ne_true
        | cons d first =>
          obtain ⟨rfl, rfl⟩ := List.cons.inj eq
          exact later.2 ⟨first, more, rfl, by rwa [List.append_cons] at accepts⟩

end Program

/-- What looks for the start of the text first matches only there. -/
theorem eq_nil_of_isAnchored {r : Regex} {before text after : List Char} (anchored : r.isAnchored)
    (holds : r.Matches before text after) : before = [] := by
  induction r generalizing before text after with
  | empty | chars | one => cases anchored
  | look kind =>
    cases kind with
    | start => exact List.getLast?_eq_none_iff.1 (Option.isNone_iff_eq_none.1 holds.2)
    | _ => cases anchored
  | cat left right ih ih' =>
    obtain ⟨first, rest, rfl, holds, holds'⟩ := holds
    rw [isAnchored, Bool.or_eq_true, Bool.and_eq_true] at anchored
    rcases anchored with anchored | ⟨silent, anchored⟩
    · exact ih anchored holds
    · exact (List.append_eq_nil_iff.1 (ih' anchored holds')).1
  | alt left right ih ih' =>
    rw [isAnchored, Bool.and_eq_true] at anchored
    rcases holds with holds | holds
    · exact ih anchored.1 holds
    · exact ih' anchored.2 holds
  | capture place body ih => exact ih anchored holds
  | repeated low high greedy body ih =>
    rw [isAnchored, Bool.and_eq_true, bne_iff_ne] at anchored
    obtain ⟨n, least, -, rounds⟩ := holds
    obtain ⟨n, rfl⟩ := Nat.exists_eq_succ_of_ne_zero fun none => anchored.1 (Nat.le_zero.1 (none ▸ least))
    obtain ⟨first, rest, rfl, holds, -⟩ := rounds
    exact ih anchored.2 holds

/-- **A program finds a match** in a text just if the expression that it was made from matches
somewhere in it. -/
theorem isMatch_program_iff (r : Regex) (text : List Char) : r.program.isMatch text
    ↔ ∃ before middle after, text = before ++ (middle ++ after) ∧ r.Matches before middle after := by
  rw [Program.isMatch, Program.find?]
  split
  · rename_i anchored
    rw [Option.isSome_map]
    refine (@Program.isSome_endAt? r.program [] text 0).trans ?_
    rw [Program.accepts_program_iff]
    constructor
    · rintro ⟨middle, after, rfl, holds⟩
      exact ⟨[], middle, after, rfl, holds⟩
    · rintro ⟨before, middle, after, rfl, holds⟩
      obtain rfl := eq_nil_of_isAnchored anchored holds
      exact ⟨middle, after, rfl, holds⟩
  · refine (@Program.isSome_findFrom r.program [] text 0).trans ?_
    simp only [Program.accepts_program_iff, List.nil_append]
    constructor
    · rintro ⟨before, _, rfl, middle, after, rfl, holds⟩
      exact ⟨before, middle, after, rfl, holds⟩
    · rintro ⟨before, middle, after, rfl, holds⟩
      exact ⟨before, _, rfl, middle, after, rfl, holds⟩

end Polyglot.Regex
