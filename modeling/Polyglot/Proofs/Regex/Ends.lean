import Mathlib
import Polyglot.Proofs.Regex.Following

/-!
# The match that is reported

A program does not only say whether an expression has a match in a text, it also says where one
starts and ends. What it reports is a match: **the expression matches just the text between the two
ends, and no match starts before the first of them** (`find?_program`). Which of several ends is
reported is a matter of preference and plays no part here.

The last match that was complete is the one that is reported, so a run is followed up to the place
where it accepts (`Program.AcceptsAt`). A run that ends there is one of the program of a longer
expression as well, which goes on with exactly the text that is left, and so what is known of
runs that end anywhere (`accepts_program_iff`) says what was matched up to that place.
-/

namespace Polyglot.Regex

open Relation (ReflTransGen)

/-! ## Steps of expressions do not accept -/

theorem accept_ne_forkFor (greedy : Bool) (body past : Int) : Step.accept ≠ forkFor greedy body past :=
  (forkFor_silent greedy body past).1.symm

section

variable {body : List Step} (noAccept : Step.accept ∉ body) (greedy : Bool)

include noAccept

theorem accept_notMem_upTo (n : Nat) : Step.accept ∉ upTo greedy n body := by
  intro mem
  obtain ⟨i, -, mem⟩ := List.mem_flatMap.1 mem
  rcases List.mem_cons.1 mem with same | mem
  · exact accept_ne_forkFor _ _ _ same
  · exact noAccept mem

theorem accept_notMem_flatten_replicate (n : Nat) : Step.accept ∉ (List.replicate n body).flatten := by
  intro mem
  obtain ⟨code, among, mem⟩ := List.mem_flatten.1 mem
  rw [List.eq_of_mem_replicate among] at mem
  exact noAccept mem

theorem accept_notMem_atLeast (n : Nat) : Step.accept ∉ atLeast greedy n body := by
  intro mem
  rcases List.mem_append.1 mem with mem | mem
  · exact accept_notMem_flatten_replicate noAccept n mem
  · exact accept_ne_forkFor _ _ _ (List.mem_singleton.1 mem)

theorem accept_notMem_anyNumber (takes : Bool) : Step.accept ∉ anyNumber greedy takes body := by
  unfold anyNumber
  split
  · simp [accept_ne_forkFor, noAccept]
  · exact accept_notMem_upTo (accept_notMem_atLeast noAccept greedy 1) greedy 1

end

/-- **Only the end of a program accepts.** -/
theorem accept_notMem_steps (r : Regex) : Step.accept ∉ r.steps := by
  induction r with
  | empty | look | chars | one => simp [steps]
  | cat first second ih ih' => simp [steps, ih, ih']
  | alt left right ih ih' => simp [steps, ih, ih']
  | capture place body ih => exact ih
  | repeated low high greedy body ih =>
    cases high with
    | some high =>
      rw [steps, List.mem_append, not_or]
      exact ⟨accept_notMem_flatten_replicate ih low, accept_notMem_upTo ih greedy _⟩
    | none =>
      cases low with
      | zero => exact accept_notMem_anyNumber ih greedy _
      | succ low => exact accept_notMem_atLeast ih greedy _

namespace Program

/-- Whether a run leads from a step to one that accepts, from a place of a text to where so much
is left. -/
inductive AcceptsAt (p : Program) : Nat → List Char → List Char → List Char → Prop
  /-- The step accepts. -/
  | done {i : Nat} {before rest : List Char} :
      p.steps[i]? = some .accept → AcceptsAt p i before rest rest
  /-- The step leads to another one. -/
  | pass {i j : Nat} {step : Step} {before rest after : List Char} : p.steps[i]? = some step →
      j ∈ step.leadsTo before.getLast? rest.head? i → AcceptsAt p j before rest after →
      AcceptsAt p i before rest after
  /-- The step takes the next character. -/
  | take {i : Nat} {set : CharSet} {c : Char} {before rest after : List Char} :
      p.steps[i]? = some (.take set) → set.contains c →
      AcceptsAt p (i + 1) (before ++ [c]) rest after → AcceptsAt p i before (c :: rest) after

variable {p : Program} {i j position last : Nat} {starts : List Nat} {best : Option Nat}
  {left rest after : List Char}

/-- A run goes on from a step that is reached at the same place. -/
theorem AcceptsAt.of_path (path : ReflTransGen (p.Passes left.getLast? rest.head?) i j)
    (accepts : p.AcceptsAt j left rest after) : p.AcceptsAt i left rest after := by
  induction path using ReflTransGen.head_induction_on with
  | refl => exact accepts
  | head passes _ ih =>
    obtain ⟨step, here, leads⟩ := passes
    exact .pass here leads ih

/-- A match that is complete at a place ends there. -/
theorem Explored.exists_acceptsAt {result : List Nat × Bool}
    (explored : p.Explored left.getLast? rest.head? starts result) (complete : result.2 = true) :
    ∃ i ∈ starts, p.AcceptsAt i left rest rest := by
  obtain ⟨j, ⟨i, mem, path⟩, accepts⟩ := explored.complete complete
  exact ⟨i, mem, .of_path path (.done accepts)⟩

/-- **The end of a match** is where a run from one of the steps ends, if it is not that of an
earlier match. -/
theorem endFrom_eq_some (found : p.endFrom left.getLast? starts position best rest = some last) :
    best = some last ∨ ∃ text after, rest = text ++ after ∧ last = position + text.length
      ∧ ∃ i ∈ starts, p.AcceptsAt i left rest after := by
  induction rest generalizing left starts position best with
  | nil =>
    have explored := explored_advance p left.getLast? none starts
    rw [endFrom] at found
    split at found
    · obtain rfl := Option.some.inj found
      exact .inr ⟨[], [], rfl, rfl, explored.exists_acceptsAt ‹_›⟩
    · exact .inl found
  | cons c rest ih =>
    have explored := explored_advance p left.getLast? (some c) starts
    rw [endFrom] at found
    generalize p.advance left.getLast? (some c) starts = result at explored found
    obtain ⟨next, complete⟩ := result
    -- a match that is complete here is found, unless a longer one follows
    have now (ends : (if complete = true then some position else best) = some last) :
        best = some last ∨ ∃ text after, c :: rest = text ++ after ∧ last = position + text.length
          ∧ ∃ i ∈ starts, p.AcceptsAt i left (c :: rest) after := by
      split at ends
      · obtain rfl := Option.some.inj ends
        have accepts : ∃ i ∈ starts, p.AcceptsAt i left (c :: rest) (c :: rest) :=
          explored.exists_acceptsAt ‹_›
        exact .inr ⟨[], c :: rest, rfl, rfl, accepts⟩
      · exact .inl ends
    dsimp only at found
    split at found
    · exact now found
    · have before : some c = (left ++ [c]).getLast? := List.getLast?_concat.symm
      rw [before] at found
      rcases ih found with ends | ⟨text, after, rfl, rfl, k, mem, accepts⟩
      · exact now ends
      · obtain ⟨j, ⟨⟨i, start, path⟩, set, takes, has⟩, rfl⟩ := explored.mem_next k mem
        exact .inr ⟨c :: text, after, rfl, by rw [List.length_cons]; omega, i, start,
          .of_path path (.take takes has accepts)⟩

/-! ## Runs that end at a place -/

/-- The steps of the program of an expression are those of the expression and one that accepts. -/
theorem getElem?_program {r : Regex} {i : Nat} {step : Step} : r.program.steps[i]? = some step
    ↔ r.steps[i]? = some step ∨ i = r.steps.length ∧ step = .accept := by
  rw [program, List.getElem?_toArray, List.getElem?_append]
  split
  · rename_i inside
    exact ⟨.inl, fun h => h.resolve_right fun last => Nat.ne_of_lt inside last.1⟩
  · rename_i outside
    rw [List.getElem?_eq_none (Nat.le_of_not_lt outside), List.getElem?_singleton]
    split
    · constructor
      · exact fun h => .inr ⟨by omega, (Option.some.inj h).symm⟩
      · rintro (⟨⟨⟩⟩ | ⟨-, rfl⟩)
        rfl
    · constructor
      · rintro ⟨⟩
      · rintro (⟨⟨⟩⟩ | ⟨same, -⟩)
        omega

/-- A run that ends where so much is left is one of an expression that goes on with just that. -/
theorem AcceptsAt.exists_accepts {r : Regex} (accepts : r.program.AcceptsAt i left rest after) :
    ∃ n, (r.cat (.cat (.chars after) (.look .stop))).program.Accepts n i left rest := by
  generalize tail : Regex.cat (.chars after) (.look .stop) = s
  have front {i : Nat} {step : Step} (here : r.steps[i]? = some step) :
      (r.cat s).program.steps[i]? = some step := by
    refine getElem?_program.2 (.inl ?_)
    rw [Regex.steps, List.getElem?_append_left (List.getElem?_eq_some_iff.1 here).1, here]
  induction accepts with
  | @done i before rest here =>
    -- where the run ends, just the characters that are left have to follow
    obtain here | ⟨rfl, -⟩ := getElem?_program.1 here
    · exact absurd (List.mem_of_getElem? here) (accept_notMem_steps r)
    have last : (r.cat s).program.steps[r.steps.length + s.steps.length]? = some .accept :=
      getElem?_program.2 (.inr ⟨by rw [Regex.steps, List.length_append], rfl⟩)
    have holds : (r.cat s).program.Holds r.steps.length s.steps := by
      intro k step at_
      refine getElem?_program.2 (.inl ?_)
      rw [Regex.steps, List.getElem?_append_right (Nat.le_add_right ..), Nat.add_sub_cancel_left, at_]
    have whole : s.Matches before rest [] := by
      rw [← tail]
      exact ⟨rest, [], (List.append_nil _).symm, rfl, rfl, rfl⟩
    obtain ⟨n, accepts⟩ := (means_steps s _ holds).runs 0 before rest [] whole (.done last)
    rw [List.append_nil] at accepts
    exact ⟨n, accepts⟩
  | pass here leads _ ih =>
    obtain ⟨n, accepts⟩ := ih tail
    obtain here | ⟨-, rfl⟩ := getElem?_program.1 here
    · exact ⟨n + 1, .pass (front here) leads accepts⟩
    · cases leads
  | take here has _ ih =>
    obtain ⟨n, accepts⟩ := ih tail
    obtain here | ⟨-, same⟩ := getElem?_program.1 here
    · exact ⟨n + 1, .take (front here) has accepts⟩
    · cases same

/-- **A run of the program of an expression** that ends where so much is left is over a text that the
expression matches. -/
theorem AcceptsAt.matches {r : Regex} (accepts : r.program.AcceptsAt 0 left rest after) :
    ∃ text, rest = text ++ after ∧ r.Matches left text after := by
  obtain ⟨_, after', rfl, text, _, rfl, holds, same, _, rfl, rfl, rfl, stop⟩ :=
    (accepts_program_iff _).1 accepts.exists_accepts
  obtain rfl : after' = [] := List.head?_eq_none_iff.1 (Option.isNone_iff_eq_none.1 stop)
  simp only [List.append_nil] at holds ⊢
  exact ⟨text, rfl, holds⟩

/-- The end of the match that starts at a place. -/
theorem endAt?_program {r : Regex} (found : r.program.endAt? left.getLast? position rest = some last) :
    ∃ text after, rest = text ++ after ∧ last = position + text.length ∧ r.Matches left text after := by
  obtain found | ⟨text, after, rfl, rfl, i, start, accepts⟩ := endFrom_eq_some found
  · cases found
  · obtain rfl := List.mem_singleton.1 start
    obtain ⟨text', same, holds⟩ := accepts.matches
    obtain rfl := List.append_cancel_right same
    exact ⟨text, after, rfl, rfl, holds⟩

theorem endAt?_eq_none {r : Regex} (none : r.program.endAt? left.getLast? position rest = none)
    {text : List Char} (eq : rest = text ++ after) : ¬ r.Matches left text after := by
  intro holds
  have found := (isSome_endAt? position).2 ((accepts_program_iff r).2 ⟨text, after, eq, holds⟩)
  rw [none] at found
  cases found

/-- The first place where a match starts, and an end of one that starts there. -/
theorem findFrom_program {r : Regex} {first : Nat}
    (found : r.program.findFrom left.getLast? position rest = some (first, last)) :
    ∃ before middle after, rest = before ++ (middle ++ after) ∧ first = position + before.length
      ∧ last = first + middle.length ∧ r.Matches (left ++ before) middle after
      ∧ ∀ b m a, rest = b ++ (m ++ a) → r.Matches (left ++ b) m a → before.length ≤ b.length := by
  induction rest generalizing left position with
  | nil =>
    obtain ⟨_, ends, same⟩ := Option.map_eq_some_iff.1 found
    obtain ⟨rfl, rfl⟩ := Prod.mk.inj same
    obtain ⟨middle, after, eq, rfl, holds⟩ := endAt?_program ends
    exact ⟨[], middle, after, eq, rfl, rfl, by rwa [List.append_nil], fun _ _ _ _ _ => Nat.zero_le _⟩
  | cons c rest ih =>
    rw [findFrom] at found
    split at found
    · rename_i ends
      obtain ⟨rfl, rfl⟩ := Prod.mk.inj (Option.some.inj found)
      obtain ⟨middle, after, eq, rfl, holds⟩ := endAt?_program ends
      exact ⟨[], middle, after, eq, rfl, rfl, by rwa [List.append_nil], fun _ _ _ _ _ => Nat.zero_le _⟩
    · rename_i none
      have next : some c = (left ++ [c]).getLast? := List.getLast?_concat.symm
      rw [next] at found
      obtain ⟨before, middle, after, rfl, rfl, rfl, holds, least⟩ := ih found
      rw [← List.append_cons] at holds
      refine ⟨c :: before, middle, after, rfl, ?_, rfl, holds, fun b m a eq holds => ?_⟩
      · rw [List.length_cons, Nat.add_assoc, Nat.add_comm 1]
      cases b with
      | nil =>
        rw [List.append_nil] at holds
        exact absurd holds (endAt?_eq_none none eq)
      | cons d b =>
        obtain ⟨rfl, eq'⟩ := List.cons.inj eq
        exact Nat.succ_le_succ (least b m a eq' (by rwa [← List.append_cons]))

end Program

/-- **What a program reports is a match** of the expression that it was made from, and none starts
before it. -/
theorem find?_program {r : Regex} {first last : Nat} {text : List Char}
    (found : r.program.find? text = some (first, last)) :
    ∃ before middle after, text = before ++ (middle ++ after) ∧ first = before.length
      ∧ last = first + middle.length ∧ r.Matches before middle after
      ∧ ∀ b m a, text = b ++ (m ++ a) → r.Matches b m a → before.length ≤ b.length := by
  rw [Program.find?] at found
  split at found
  · obtain ⟨n, ends, eq⟩ := Option.map_eq_some_iff.1 found
    obtain ⟨rfl, rfl⟩ := Prod.mk.inj eq
    replace ends : r.program.endAt? [].getLast? 0 text = some n := ends
    obtain ⟨middle, after, rfl, rfl, holds⟩ := Program.endAt?_program ends
    exact ⟨[], middle, after, rfl, rfl, rfl, holds, fun _ _ _ _ _ => Nat.zero_le _⟩
  · replace found : r.program.findFrom [].getLast? 0 text = some (first, last) := found
    obtain ⟨before, middle, after, eq, rfl, rfl, holds, least⟩ := Program.findFrom_program found
    exact ⟨before, middle, after, eq, Nat.zero_add _, rfl, holds, least⟩

end Polyglot.Regex
