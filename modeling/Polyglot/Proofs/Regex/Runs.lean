import Mathlib.Data.List.Basic
import Mathlib.Data.List.Range
import Polyglot.Proofs.Regex.Matching
import Polyglot.Regex.Program

/-!
# What the steps of a program lead to

A run of a program goes from step to step, and over a character where a step takes one, until a
step accepts (`Program.Accepts`). Which of several ways is preferred plays no part here.

The steps of an expression are one stretch of a program that is entered at its front and left at
its end. Such a stretch *means* a condition (`Program.Means`) if the runs from its front are those
that first take a text for which the condition holds, and then go on from its end. What the
stretches of the operators mean follows from what their parts mean; for a loop, by the number of
steps in one direction and by the number of rounds in the other. So the steps of an expression mean
what the expression matches (`Program.means_steps`), and so do runs of its whole program
(`accepts_program_iff`).
-/

namespace Polyglot.Regex

/-- The steps that a step leads to without a character, between two characters. -/
def Step.leadsTo (before after : Option Char) (i : Nat) : Step → List Nat
  | take _ => []
  | look kind => if kind.holds before after then [i + 1] else []
  | jump offset => [Program.target i offset]
  | fork preferred other => [Program.target i preferred, Program.target i other]
  | accept => []

/-- A repetition's fork leads to the body and past it, whichever is preferred. -/
theorem mem_leadsTo_forkFor {before after : Option Char} {i j : Nat} {greedy : Bool} {body past : Int} :
    j ∈ (forkFor greedy body past).leadsTo before after i
      ↔ j = Program.target i body ∨ j = Program.target i past := by
  cases greedy with
  | true => exact List.mem_pair
  | false => exact List.mem_pair.trans Or.comm

theorem forkFor_silent (greedy : Bool) (body past : Int) :
    forkFor greedy body past ≠ .accept ∧ ∀ set, forkFor greedy body past ≠ .take set := by
  cases greedy with
  | true => exact ⟨nofun, nofun⟩
  | false => exact ⟨nofun, nofun⟩

/-- Either of two conditions. -/
def Sense.or (m m' : Sense) : Sense := fun before text after => m before text after ∨ m' before text after

/-- Any number of rounds, the least number of which is given. -/
def Sense.rounds (least : Nat) (m : Sense) : Sense := fun before text after =>
  ∃ n, least ≤ n ∧ InRow (List.replicate n m) before text after

/-- Any number of rounds up to some. -/
def Sense.upTo (most : Nat) (m : Sense) : Sense := fun before text after =>
  ∃ n, n ≤ most ∧ InRow (List.replicate n m) before text after

namespace Program

variable {p : Program}

/-- Whether a run of so many steps leads from a step to one that accepts. The run is at a place
of a text: what comes before it, and what is left, of which it need not take all. -/
inductive Accepts (p : Program) : Nat → Nat → List Char → List Char → Prop
  /-- The step accepts. -/
  | done {i : Nat} {before rest : List Char} : p.steps[i]? = some .accept → Accepts p 0 i before rest
  /-- The step leads to another one. -/
  | pass {n i j : Nat} {step : Step} {before rest : List Char} : p.steps[i]? = some step →
      j ∈ step.leadsTo before.getLast? rest.head? i → Accepts p n j before rest →
      Accepts p (n + 1) i before rest
  /-- The step takes the next character. -/
  | take {n i : Nat} {set : CharSet} {c : Char} {before rest : List Char} :
      p.steps[i]? = some (.take set) → set.contains c → Accepts p n (i + 1) (before ++ [c]) rest →
      Accepts p (n + 1) i before (c :: rest)

/-- Whether the runs from one step are those that take a text for which a condition holds and
then go on from another step. -/
structure Means (p : Program) (i j : Nat) (m : Sense) : Prop where
  /-- A run takes such a text, and goes on in at most as many steps. -/
  leads : ∀ n before rest, p.Accepts n i before rest → ∃ text after, rest = text ++ after
    ∧ m before text after ∧ ∃ k ≤ n, p.Accepts k j (before ++ text) after
  /-- There is a run over every such text. -/
  runs : ∀ n before text after, m before text after → p.Accepts n j (before ++ text) after →
    ∃ k, p.Accepts k i before (text ++ after)

/-- A run from a step that takes no character goes on from one that it leads to. -/
theorem Accepts.exists_pass {n i : Nat} {step : Step} {before rest : List Char}
    (accepts : p.Accepts n i before rest) (here : p.steps[i]? = some step)
    (silent : step ≠ .accept ∧ ∀ set, step ≠ .take set) :
    ∃ j ∈ step.leadsTo before.getLast? rest.head? i, ∃ k < n, p.Accepts k j before rest := by
  cases accepts with
  | done here' => exact absurd (Option.some.inj (here.symm.trans here')) silent.1
  | pass here' leads accepts =>
    obtain rfl := Option.some.inj (here.symm.trans here')
    exact ⟨_, leads, _, Nat.lt_succ_self _, accepts⟩
  | take here' _ _ => exact absurd (Option.some.inj (here.symm.trans here')) (silent.2 _)

namespace Means

variable {i j k : Nat} {m m' : Sense}

theorem congr (means : p.Means i j m)
    (same : ∀ before text after, m before text after ↔ m' before text after) : p.Means i j m' where
  leads n before rest accepts := by
    obtain ⟨text, after, eq, holds, more⟩ := means.leads n before rest accepts
    exact ⟨text, after, eq, (same ..).1 holds, more⟩
  runs n before text after holds := means.runs n before text after ((same ..).2 holds)

/-! ## Rows -/

/-- Nothing at all. -/
theorem nothing (i : Nat) : p.Means i i (InRow []) where
  leads n before rest accepts :=
    ⟨[], rest, rfl, rfl, n, Nat.le_refl _, by rwa [List.append_nil]⟩
  runs n before text after holds accepts := by
    obtain rfl : text = [] := holds
    rw [List.append_nil] at accepts
    exact ⟨n, accepts⟩

theorem skip (same : i = j) : p.Means i j (InRow []) := same ▸ nothing i

/-- One stretch after another. -/
theorem append {ms ms' : List Sense} (means : p.Means i j (InRow ms))
    (means' : p.Means j k (InRow ms')) : p.Means i k (InRow (ms ++ ms')) where
  leads n before rest accepts := by
    obtain ⟨first, rest, rfl, holds, l, le, accepts⟩ := means.leads n before rest accepts
    obtain ⟨text, after, rfl, holds', l', le', accepts⟩ := means'.leads l _ rest accepts
    rw [List.append_assoc] at accepts
    exact ⟨first ++ text, after, (List.append_assoc ..).symm,
      inRow_append.2 ⟨first, text, rfl, holds, holds'⟩, l', Nat.le_trans le' le, accepts⟩
  runs n before text after holds accepts := by
    obtain ⟨first, rest, rfl, holds, holds'⟩ := inRow_append.1 holds
    rw [← List.append_assoc] at accepts
    obtain ⟨l, accepts⟩ := means'.runs n _ rest after holds' accepts
    rw [List.append_assoc]
    exact means.runs l before first _ holds accepts

theorem single (means : p.Means i j m) : p.Means i j (InRow [m]) :=
  means.congr fun _ _ _ => inRow_singleton.symm

theorem of_single (means : p.Means i j (InRow [m])) : p.Means i j m :=
  means.congr fun _ _ _ => inRow_singleton

/-! ## Steps -/

/-- One character of a set. -/
theorem take {set : CharSet} (here : p.steps[i]? = some (.take set)) :
    p.Means i (i + 1) fun _ text _ => ∃ c, text = [c] ∧ set.contains c where
  leads n before rest accepts := by
    cases accepts with
    | done here' => cases here.symm.trans here'
    | pass here' leads accepts =>
      obtain rfl := Option.some.inj (here.symm.trans here')
      cases leads
    | @take n _ set' c _ rest here' has accepts =>
      obtain rfl := Step.take.inj (Option.some.inj (here.symm.trans here'))
      exact ⟨[c], rest, rfl, ⟨c, rfl, has⟩, n, Nat.le_succ n, accepts⟩
  runs n before text after holds accepts := by
    obtain ⟨c, rfl, has⟩ := holds
    exact ⟨n + 1, .take here has accepts⟩

/-- A condition on the place. -/
theorem look {kind : Look} (here : p.steps[i]? = some (.look kind)) :
    p.Means i (i + 1) fun before text after =>
      text = [] ∧ kind.holds before.getLast? after.head? where
  leads n before rest accepts := by
    obtain ⟨j, leads, l, lt, accepts⟩ := accepts.exists_pass here ⟨nofun, nofun⟩
    rw [Step.leadsTo] at leads
    split at leads
    · rename_i holds
      obtain rfl := List.mem_singleton.1 leads
      exact ⟨[], rest, rfl, ⟨rfl, holds⟩, l, Nat.le_of_lt lt, by rwa [List.append_nil]⟩
    · cases leads
  runs n before text after holds accepts := by
    obtain ⟨rfl, holds⟩ := holds
    rw [List.append_nil] at accepts
    refine ⟨n + 1, .pass here ?_ accepts⟩
    rw [Step.leadsTo, List.nil_append, if_pos holds]
    exact List.mem_singleton_self _

/-- A jump. -/
theorem jump {offset : Int} (here : p.steps[i]? = some (.jump offset))
    (means : p.Means (target i offset) k m) : p.Means i k m where
  leads n before rest accepts := by
    obtain ⟨j, leads, l, lt, accepts⟩ := accepts.exists_pass here ⟨nofun, nofun⟩
    obtain rfl := List.mem_singleton.1 leads
    obtain ⟨text, after, eq, holds, l', le, accepts⟩ := means.leads l before rest accepts
    exact ⟨text, after, eq, holds, l', by omega, accepts⟩
  runs n before text after holds accepts := by
    obtain ⟨l, accepts⟩ := means.runs n before text after holds accepts
    exact ⟨l + 1, .pass here (List.mem_singleton_self _) accepts⟩

/-- A fork, whichever of its sides is preferred. -/
theorem fork {greedy : Bool} {body past : Int} (here : p.steps[i]? = some (forkFor greedy body past))
    (means : p.Means (target i body) k m) (means' : p.Means (target i past) k m') :
    p.Means i k (m.or m') where
  leads n before rest accepts := by
    obtain ⟨j, leads, l, lt, accepts⟩ := accepts.exists_pass here (forkFor_silent ..)
    rcases mem_leadsTo_forkFor.1 leads with rfl | rfl
    · obtain ⟨text, after, eq, holds, l', le, accepts⟩ := means.leads l before rest accepts
      exact ⟨text, after, eq, .inl holds, l', by omega, accepts⟩
    · obtain ⟨text, after, eq, holds, l', le, accepts⟩ := means'.leads l before rest accepts
      exact ⟨text, after, eq, .inr holds, l', by omega, accepts⟩
  runs n before text after holds accepts := by
    rcases holds with holds | holds
    · obtain ⟨l, accepts⟩ := means.runs n before text after holds accepts
      exact ⟨l + 1, .pass here (mem_leadsTo_forkFor.2 (.inl rfl)) accepts⟩
    · obtain ⟨l, accepts⟩ := means'.runs n before text after holds accepts
      exact ⟨l + 1, .pass here (mem_leadsTo_forkFor.2 (.inr rfl)) accepts⟩

/-- **A loop.** Where a fork leads to a stretch that comes back to it, any number of rounds is
run before the other side is taken. -/
theorem loop {greedy : Bool} {body past : Int} (here : p.steps[i]? = some (forkFor greedy body past))
    (means : p.Means (target i body) i m) : p.Means i (target i past) (m.rounds 0) where
  leads n before rest accepts := by
    -- every round takes a step at least, so there are fewer left after it
    induction n using Nat.strongRecOn generalizing before rest with
    | _ n ih =>
      obtain ⟨j, leads, k, lt, accepts⟩ := accepts.exists_pass here (forkFor_silent ..)
      rcases mem_leadsTo_forkFor.1 leads with rfl | rfl
      · obtain ⟨first, rest, rfl, holds, l, le, accepts⟩ := means.leads k before rest accepts
        obtain ⟨text, after, rfl, ⟨rounds, -, others⟩, l', le', accepts⟩ :=
          ih l (by omega) _ _ accepts
        rw [List.append_assoc] at accepts
        exact ⟨first ++ text, after, (List.append_assoc ..).symm,
          ⟨rounds + 1, Nat.zero_le _, first, text, rfl, holds, others⟩, l', by omega, accepts⟩
      · exact ⟨[], rest, rfl, ⟨0, Nat.le_refl _, rfl⟩, k, Nat.le_of_lt lt, by rwa [List.append_nil]⟩
  runs n before text after holds accepts := by
    obtain ⟨rounds, -, holds⟩ := holds
    induction rounds generalizing before text with
    | zero =>
      obtain rfl : text = [] := holds
      rw [List.append_nil] at accepts
      exact ⟨n + 1, .pass here (mem_leadsTo_forkFor.2 (.inr rfl)) accepts⟩
    | succ rounds ih =>
      obtain ⟨first, rest, rfl, holds, others⟩ := holds
      rw [← List.append_assoc] at accepts
      obtain ⟨l, accepts⟩ := ih _ rest accepts others
      obtain ⟨l', accepts⟩ := means.runs l before first _ holds accepts
      rw [List.append_assoc]
      exact ⟨l' + 1, .pass here (mem_leadsTo_forkFor.2 (.inl rfl)) accepts⟩

end Means

/-! ## Stretches -/

/-- Whether some steps stand in a program from a place on. -/
def Holds (p : Program) (i : Nat) (code : List Step) : Prop :=
  ∀ k step, code[k]? = some step → p.steps[i + k]? = some step

namespace Holds

variable {i : Nat} {code code' : List Step}

theorem cons_iff {step : Step} :
    p.Holds i (step :: code) ↔ p.steps[i]? = some step ∧ p.Holds (i + 1) code := by
  constructor
  · refine fun holds => ⟨holds 0 step rfl, fun k step' at_ => ?_⟩
    rw [Nat.add_assoc, Nat.add_comm 1]
    exact holds (k + 1) step' at_
  · rintro ⟨here, holds⟩ (_ | k) step' at_
    · rw [← Option.some.inj at_]
      exact here
    · rw [Nat.add_comm k, ← Nat.add_assoc]
      exact holds k step' at_

theorem append_iff :
    p.Holds i (code ++ code') ↔ p.Holds i code ∧ p.Holds (i + code.length) code' := by
  induction code generalizing i with
  | nil => exact ⟨fun holds => ⟨nofun, holds⟩, fun holds => holds.2⟩
  | cons step code ih =>
    rw [List.cons_append, cons_iff, cons_iff, ih, and_assoc, List.length_cons, Nat.add_assoc i 1,
      Nat.add_comm 1]

end Holds

variable {i : Nat} {m : Sense} {body : List Step}

/-- A stretch that means something wherever it stands in a program. -/
def MeansAnywhere (p : Program) (code : List Step) (m : Sense) : Prop :=
  ∀ i, p.Holds i code → p.Means i (i + code.length) m

/-- So many rounds in a row. -/
theorem means_replicate (means : p.MeansAnywhere body m) (n : Nat) :
    p.MeansAnywhere (List.replicate n body).flatten (InRow (List.replicate n m)) := by
  induction n with
  | zero => exact fun i _ => .nothing i
  | succ n ih =>
    intro i holds
    rw [List.replicate_succ, List.flatten_cons, Holds.append_iff] at holds
    rw [List.replicate_succ, List.flatten_cons, List.length_append, ← Nat.add_assoc]
    exact (means i holds.1).single.append (ih _ holds.2)

theorem upTo_succ (greedy : Bool) (n : Nat) (body : List Step) : upTo greedy (n + 1) body
    = forkFor greedy 1 ((n + 1) * (body.length + 1) : Nat) :: body ++ upTo greedy n body := by
  unfold upTo
  rw [List.range_succ_eq_map, List.flatMap_cons, List.flatMap_map]
  simp only [Nat.sub_zero, Nat.succ_eq_add_one, Nat.add_sub_add_right]

theorem length_upTo (greedy : Bool) (n : Nat) (body : List Step) :
    (upTo greedy n body).length = n * (body.length + 1) := by
  induction n with
  | zero => rw [upTo]; simp
  | succ n ih => rw [upTo_succ, List.length_append, ih, List.length_cons, Nat.succ_mul, Nat.add_comm]

theorem target_add (i n : Nat) : target i n = i + n := by
  rw [target, ← Int.natCast_add, Int.toNat_natCast]

/-- Any number of rounds up to some. -/
theorem means_upTo (greedy : Bool) (means : p.MeansAnywhere body m) (n : Nat) :
    p.MeansAnywhere (upTo greedy n body) (m.upTo n) := by
  induction n with
  | zero =>
    refine fun i _ => (Means.nothing i).congr fun before text after => ?_
    constructor
    · exact fun none => ⟨0, Nat.le_refl _, none⟩
    · rintro ⟨n, le, holds⟩
      obtain rfl := Nat.le_zero.1 le
      exact holds
  | succ n ih =>
    intro i holds
    have length := length_upTo greedy (n + 1) body
    rw [upTo_succ, List.cons_append, Holds.cons_iff, Holds.append_iff] at holds
    obtain ⟨here, first, others⟩ := holds
    -- the fork leads past all rounds that are left
    have past : target i ((n + 1) * (body.length + 1) : Nat) = i + (upTo greedy (n + 1) body).length := by
      rw [target_add, length]
    have inside : p.Means (target i 1) (i + (upTo greedy (n + 1) body).length) (InRow [m, m.upTo n]) := by
      have stop : i + (upTo greedy (n + 1) body).length
          = i + 1 + body.length + (upTo greedy n body).length := by
        rw [length, length_upTo, Nat.succ_mul]
        omega
      rw [stop]
      exact (means (i + 1) first).single.append (ih _ others).single
    refine (Means.fork here inside (Means.skip past)).congr fun before text after => ?_
    constructor
    · rintro (⟨first, rest, rfl, holds, others⟩ | none)
      · obtain ⟨k, le, others⟩ := inRow_singleton.1 others
        exact ⟨k + 1, Nat.succ_le_succ le, first, rest, rfl, holds, others⟩
      · exact ⟨0, Nat.zero_le _, none⟩
    · rintro ⟨k, le, holds⟩
      cases k with
      | zero => exact .inr holds
      | succ k =>
        obtain ⟨first, rest, rfl, holds, others⟩ := holds
        exact .inl ⟨first, rest, rfl, holds, inRow_singleton.2 ⟨k, Nat.le_of_succ_le_succ le, others⟩⟩

/-- At least so many rounds. -/
theorem means_atLeast (greedy : Bool) (means : p.MeansAnywhere body m) (n : Nat) :
    p.MeansAnywhere (atLeast greedy (n + 1) body) (m.rounds (n + 1)) := by
  intro i holds
  rw [atLeast, Holds.append_iff, Holds.cons_iff] at holds
  obtain ⟨rounds, here, -⟩ := holds
  have length : (List.replicate (n + 1) body).flatten.length
      = (List.replicate n body).flatten.length + body.length := by
    rw [List.replicate_succ', List.flatten_append, List.length_append, List.flatten_singleton]
  have last : p.Holds (i + (List.replicate n body).flatten.length) body := by
    rw [List.replicate_succ', List.flatten_append, List.flatten_singleton, Holds.append_iff] at rounds
    exact rounds.2
  -- the way back leads to the start of the last round
  have back : target (i + (List.replicate (n + 1) body).flatten.length) (-(body.length : Int))
      = i + (List.replicate n body).flatten.length := by
    rw [target, length]
    omega
  have around : p.Means (target (i + (List.replicate (n + 1) body).flatten.length)
      (-(body.length : Int))) (i + (List.replicate (n + 1) body).flatten.length) m := by
    rw [back, length, ← Nat.add_assoc]
    exact means _ last
  have stop : target (i + (List.replicate (n + 1) body).flatten.length) 1
      = i + (atLeast greedy (n + 1) body).length := by
    rw [atLeast, List.length_append, ← Nat.add_assoc]
    exact target_add _ 1
  have whole := (means_replicate means (n + 1) i rounds).append (Means.loop here around).single
  rw [stop] at whole
  refine whole.congr fun before text after => ?_
  rw [inRow_append]
  constructor
  · rintro ⟨first, rest, rfl, holds, others⟩
    obtain ⟨k, -, others⟩ := inRow_singleton.1 others
    refine ⟨n + 1 + k, Nat.le_add_right .., ?_⟩
    rw [← List.replicate_append_replicate]
    exact inRow_append.2 ⟨first, rest, rfl, holds, others⟩
  · rintro ⟨k, le, holds⟩
    obtain ⟨k, rfl⟩ := Nat.exists_eq_add_of_le le
    rw [← List.replicate_append_replicate] at holds
    obtain ⟨first, rest, rfl, holds, others⟩ := inRow_append.1 holds
    exact ⟨first, rest, rfl, holds, inRow_singleton.2 ⟨k, Nat.zero_le _, others⟩⟩

/-- Any number of rounds. -/
theorem means_anyNumber (greedy takes : Bool) (means : p.MeansAnywhere body m) :
    p.MeansAnywhere (anyNumber greedy takes body) (m.rounds 0) := by
  intro i holds
  cases takes with
  | true =>
    have length : (anyNumber greedy true body).length = body.length + 2 := by
      simp [anyNumber]
    rw [anyNumber, if_pos rfl, List.cons_append, Holds.cons_iff, Holds.append_iff, Holds.cons_iff]
      at holds
    obtain ⟨here, first, back, -⟩ := holds
    have start : target (i + 1 + body.length) (-(body.length + 1 : Nat)) = i := by
      rw [target]
      omega
    have around : p.Means (target i 1) i m := by
      have comes : p.Means (i + 1) i (InRow ([m] ++ [])) :=
        (means (i + 1) first).single.append (Means.jump back (Means.skip start))
      exact comes.of_single
    have loop := Means.loop here around
    rwa [target_add, ← length] at loop
  | false =>
    -- a body that can match nothing must not be entered in circles: at least one round, or none
    refine (means_upTo greedy (means_atLeast greedy means 0) 1 i holds).congr
      fun before text after => ?_
    constructor
    · rintro ⟨k, le, holds⟩
      obtain rfl | rfl := Nat.le_one_iff_eq_zero_or_eq_one.1 le
      · exact ⟨0, Nat.le_refl _, holds⟩
      · obtain ⟨k, -, holds⟩ := inRow_singleton.1 holds
        exact ⟨k, Nat.zero_le _, holds⟩
    · rintro ⟨k, -, holds⟩
      cases k with
      | zero => exact ⟨0, Nat.zero_le _, holds⟩
      | succ k => exact ⟨1, Nat.le_refl _, inRow_singleton.2 ⟨k + 1, Nat.succ_le_succ (Nat.zero_le _), holds⟩⟩

/-! ## The operators -/

/-- Characters one after the other. -/
theorem means_chars (cs : List Char) : p.MeansAnywhere (Regex.steps (.chars cs)) (Regex.Matches (.chars cs)) := by
  induction cs with
  | nil => exact fun i _ => .nothing i
  | cons c cs ih =>
    intro i holds
    obtain ⟨here, others⟩ := Holds.cons_iff.1 holds
    have both := (Means.take here).single.append (ih (i + 1) others).single
    rw [Regex.steps, List.map_cons, List.length_cons, Nat.add_comm _ 1, ← Nat.add_assoc]
    refine both.congr fun before text after => ?_
    constructor
    · rintro ⟨_, rest, rfl, ⟨d, rfl, has⟩, others⟩
      obtain rfl := inRow_singleton.1 others
      rw [CharSet.contains_singleton, beq_iff_eq] at has
      rw [has]
      rfl
    · rintro rfl
      exact ⟨[c], cs, rfl, ⟨c, rfl, by simp⟩, inRow_singleton.2 rfl⟩

section

variable {left right r : Regex}

/-- One expression after another. -/
theorem means_cat (means : p.MeansAnywhere left.steps left.Matches)
    (means' : p.MeansAnywhere right.steps right.Matches) :
    p.MeansAnywhere (Regex.cat left right).steps (Regex.cat left right).Matches := by
  intro i holds
  obtain ⟨first, second⟩ := Holds.append_iff.1 holds
  have both := (means i first).single.append (means' _ second).single
  rw [Regex.steps, List.length_append, ← Nat.add_assoc]
  exact both.congr fun before text after => inRow_pair

/-- One expression or another. The first one ends with a jump over the second. -/
theorem means_alt (means : p.MeansAnywhere left.steps left.Matches)
    (means' : p.MeansAnywhere right.steps right.Matches) :
    p.MeansAnywhere (Regex.alt left right).steps (Regex.alt left right).Matches := by
  intro i holds
  rw [Regex.steps, List.cons_append, Holds.cons_iff, Holds.append_iff, Holds.cons_iff] at holds
  obtain ⟨here, first, past, second⟩ := holds
  have here : p.steps[i]? = some (forkFor true 1 (left.steps.length + 2 : Nat)) := here
  have length : (Regex.steps (.alt left right)).length = left.steps.length + right.steps.length + 2 := by
    simp only [Regex.steps, List.cons_append, List.length_cons, List.length_append]
    omega
  have stop : target (i + 1 + left.steps.length) (right.steps.length + 1 : Nat)
      = i + (Regex.steps (.alt left right)).length := by
    rw [target_add, length]
    omega
  have one : p.Means (target i 1) (i + (Regex.steps (.alt left right)).length) left.Matches := by
    have comes : p.Means (i + 1) (i + (Regex.steps (.alt left right)).length)
        (InRow ([left.Matches] ++ [])) :=
      (means (i + 1) first).single.append (Means.jump past (Means.skip stop))
    exact comes.of_single
  have other : p.Means (target i (left.steps.length + 2 : Nat))
      (i + (Regex.steps (.alt left right)).length) right.Matches := by
    have start : target i (left.steps.length + 2 : Nat) = i + 1 + left.steps.length + 1 := by
      rw [target_add]
      omega
    have stop : i + 1 + left.steps.length + 1 + right.steps.length
        = i + (Regex.steps (.alt left right)).length := by
      rw [length]
      omega
    rw [start, ← stop]
    exact means' _ second
  exact Means.fork here one other

/-- So many rounds at least, and so many at most. -/
theorem means_between (greedy : Bool) (means : p.MeansAnywhere r.steps r.Matches) (low most : Nat) :
    p.MeansAnywhere (Regex.repeated low (some most) greedy r).steps
      (Regex.repeated low (some most) greedy r).Matches := by
  intro i holds
  rw [Regex.steps, Holds.append_iff] at holds
  obtain ⟨least, others⟩ := holds
  have both := (means_replicate means low i least).append
    (means_upTo greedy means (most - low) _ others).single
  rw [Regex.steps, List.length_append, ← Nat.add_assoc]
  refine both.congr fun before text after => ?_
  rw [inRow_append]
  constructor
  · rintro ⟨first, rest, rfl, holds, others⟩
    obtain ⟨k, le, others⟩ := inRow_singleton.1 others
    refine ⟨low + k, Nat.le_add_right .., fun _ mem => ?_, ?_⟩
    · obtain rfl := Option.some.inj mem
      omega
    · rw [← List.replicate_append_replicate]
      exact inRow_append.2 ⟨first, rest, rfl, holds, others⟩
  · rintro ⟨n, le, bound, holds⟩
    obtain ⟨k, rfl⟩ := Nat.exists_eq_add_of_le le
    have le := bound most rfl
    rw [← List.replicate_append_replicate] at holds
    obtain ⟨first, rest, rfl, holds, others⟩ := inRow_append.1 holds
    exact ⟨first, rest, rfl, holds, inRow_singleton.2 ⟨k, by omega, others⟩⟩

/-- So many rounds at least, and no bound. -/
theorem means_unbounded (greedy : Bool) (means : p.MeansAnywhere r.steps r.Matches) (low : Nat) :
    p.MeansAnywhere (Regex.repeated low none greedy r).steps
      (Regex.repeated low none greedy r).Matches := by
  have rounds : p.MeansAnywhere (Regex.repeated low none greedy r).steps (r.Matches.rounds low) := by
    cases low with
    | zero => exact means_anyNumber greedy r.takes means
    | succ low => exact means_atLeast greedy means low
  refine fun i holds => (rounds i holds).congr fun before text after => ?_
  exact exists_congr fun k => and_congr_right fun _ => (and_iff_right nofun).symm

end

/-- **The steps of an expression** mean what it matches, wherever they stand. -/
theorem means_steps (r : Regex) : p.MeansAnywhere r.steps r.Matches := by
  induction r with
  | empty => exact fun i _ => .nothing i
  | look kind => exact fun i holds => .look (Holds.cons_iff.1 holds).1
  | one set => exact fun i holds => .take (Holds.cons_iff.1 holds).1
  | chars cs => exact means_chars cs
  | cat left right ih ih' => exact means_cat ih ih'
  | alt left right ih ih' => exact means_alt ih ih'
  | capture place body ih => exact ih
  | repeated low high greedy body ih =>
    cases high with
    | some most => exact means_between greedy ih low most
    | none => exact means_unbounded greedy ih low

/-- **Runs of the program of an expression** are over the texts at the front that it matches. -/
theorem accepts_program_iff (r : Regex) {before rest : List Char} :
    (∃ n, r.program.Accepts n 0 before rest)
      ↔ ∃ text after, rest = text ++ after ∧ r.Matches before text after := by
  have holds : r.program.Holds 0 (r.steps ++ [.accept]) := by
    intro k step at_
    rw [Nat.zero_add, Regex.program, List.getElem?_toArray]
    exact at_
  obtain ⟨holds, last⟩ := Holds.append_iff.1 holds
  have means := means_steps r 0 holds
  constructor
  · rintro ⟨n, accepts⟩
    obtain ⟨text, after, rfl, holds, -⟩ := means.leads n before rest accepts
    exact ⟨text, after, rfl, holds⟩
  · rintro ⟨text, after, rfl, holds⟩
    exact means.runs 0 before text after holds (.done (Holds.cons_iff.1 last).1)

end Program

end Polyglot.Regex
