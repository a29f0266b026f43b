import Mathlib
import Polyglot.Proofs.Machine.Faults

/-!
# Limits of steps

A machine may be told to stop after a number of steps. It looks at that number in one place only,
before an instruction is fetched, so as long as the number is not used up the machine does what
it does under any other limit (`State.step_limited`). A run under a limit is therefore the run without
one, cut off after so many steps (`State.runFor_limited`).

What comes of this at the limit itself is a matter of one step. **A machine that stops with its last
step has stopped**: the limit is found used up only by a step that is tried, and a machine that has
come to its end tries none. **A machine that fails with its last step has failed**, and what would go
wrong with the next one does not show. So a run under a limit of `n` uses it up just if the machine is
still going after `n` steps (`State.limit_truncates`).
-/

namespace Polyglot.Machine

/-- The parameters with another limit of steps, or without one. -/
def Config.limited (c : Config) (limit : Option Nat) : Config := { c with maxSteps := limit }

namespace State

variable {s t : State} {limit : Option Nat} {n : Nat}

/-- The machine with another limit of steps, or without one. -/
def limited (s : State) (limit : Option Nat) : State :=
  { s with config := s.config.limited limit }

theorem limited_of_maxSteps (h : s.config.maxSteps = limit) : s.limited limit = s := by
  subst h
  rfl

/-- Whether a run ends with a machine, and what comes of it. -/
def Ends (s t : State) (result : Except Fault Int32) : Prop :=
  ∃ allowance, s.runFor allowance = (t, some result)

/-- A run ends in one way only. -/
theorem Ends.unique {t' : State} {result result' : Except Fault Int32} (h : s.Ends t result)
    (h' : s.Ends t' result') : t = t' ∧ result = result' := by
  obtain ⟨n, ends⟩ := h
  obtain ⟨m, ends'⟩ := h'
  have same := runFor_eq_of_stopped (by rw [ends]; rfl) (by rw [ends']; rfl)
  rw [ends, ends', Prod.mk.injEq, Option.some.injEq] at same
  exact ⟨same.1.symm, same.2.symm⟩

/-! ## Where the limit is not looked at -/

theorem readRegister_limited (r : Register) : (s.limited limit).readRegister r = s.readRegister r := rfl

theorem writeRegister_limited (r : Register) (value : Int32) :
    (s.limited limit).writeRegister r value = (s.writeRegister r value).limited limit := by
  unfold writeRegister limited
  split <;> rfl

/-- A call to the host does the same under any limit. -/
theorem hostCall_limited (s : State) (limit : Option Nat) :
    (s.limited limit).hostCall = (s.hostCall.1.limited limit, s.hostCall.2) := by
  have room : (s.config.limited limit).stackLimit = s.config.stackLimit := rfl
  unfold hostCall limited
  dsimp only
  rw [room]
  split
  · rfl
  · split <;> rfl
  · split <;> rfl
  · split
    · rfl
    · split <;> rfl
  · rfl
  · split <;> rfl
  · rfl

/-- An instruction does the same under any limit. -/
theorem execute_limited (s : State) (limit : Option Nat) (i : Instruction) :
    (s.limited limit).execute i = ((s.execute i).1.limited limit, (s.execute i).2) := by
  cases i with
  | branch op a b offset =>
    by_cases equal : s.readRegister a = s.readRegister b <;> cases op <;>
      simp [execute, readRegister_limited, equal] <;> rfl
  | immediate op d a imm =>
    simp only [execute, readRegister_limited, writeRegister_limited]
    split <;> rfl
  | operation op d a b =>
    simp only [execute, readRegister_limited, writeRegister_limited]
    split <;> rfl
  | memory op r base offset =>
    have memory : (s.limited limit).memory = s.memory := rfl
    cases op with
    | load =>
      simp only [execute, readRegister_limited, writeRegister_limited, memory]
      split <;> rfl
    | store =>
      simp only [execute, readRegister_limited, memory]
      split <;> rfl
  | jump offset => rfl
  | env op =>
    cases op with
    | call => exact hostCall_limited s limit
    | «break» => rfl

/-- **A step does the same under any limit** that is not used up. -/
theorem step_limited (limit : Option Nat) (before : s.exhausted? = none)
    (before' : (s.limited limit).exhausted? = none) :
    (s.limited limit).step = (s.step.1.limited limit, s.step.2) := by
  by_cases stopped : s.pc = 0
  · rw [step, step, if_pos stopped, if_pos (show (s.limited limit).pc = 0 from stopped)]
  have going : (s.limited limit).pc ≠ 0 := stopped
  have same : (s.limited limit).fetch = s.fetch := rfl
  cases fetched : s.fetch with
  | error fault =>
    simp only [step, stopped, going, ↓reduceIte, before, before', same, fetched]
  | ok i =>
    have carried : (s.limited limit).ready.execute i
        = ((s.ready.execute i).1.limited limit, (s.ready.execute i).2) := execute_limited s.ready limit i
    rcases executed : s.ready.execute i with ⟨t, fault | ⟨⟩⟩ <;> rw [executed] at carried
    · rw [step_of_fault stopped before fetched executed,
        step_of_fault going before' (same.trans fetched) carried]
    · rw [step_of_fetch stopped before fetched executed,
        step_of_fetch going before' (same.trans fetched) carried]
      rfl

/-! ## Runs -/

/-- A machine that goes on has not come to its end. -/
theorem going_of_step (stepped : s.step = (t, .ok true)) : t.pc ≠ 0 := by
  unfold step at stepped
  split at stepped
  · cases stepped
  split at stepped
  · cases stepped
  split at stepped
  · cases stepped
  split at stepped
  · cases stepped
  dsimp only at stepped
  split at stepped
  · cases stepped
  obtain ⟨rfl, next⟩ := Prod.mk.inj stepped
  exact bne_iff_ne.1 (Except.ok.inj next)

/-- What is true of a machine without a limit of steps that has made some of them and is still
going. -/
structure Going (n : Nat) (s : State) : Prop where
  /-- There is no limit. -/
  unlimited : s.config.maxSteps = none
  /-- The machine has not come to its end. -/
  pc : s.pc ≠ 0
  /-- So many instructions were executed. -/
  steps : s.steps = n

theorem Going.step (h : Going n s) (stepped : s.step = (t, .ok true)) : Going (n + 1) t := by
  have kept := (keeps_step s).config
  rw [stepped] at kept
  refine ⟨(congrArg Config.maxSteps kept).trans h.unlimited, going_of_step stepped, ?_⟩
  obtain ⟨-, counted⟩ | ⟨stopped, -⟩ := step_eq_ok (congrArg Prod.snd stepped)
  · rw [stepped] at counted
    exact counted.trans (congrArg (· + 1) h.steps)
  · exact absurd stopped h.pc

theorem Going.exhausted (h : Going n s) : s.exhausted? = none := by
  rw [exhausted?, h.unlimited, Option.filter_none]

theorem exhausted?_limited_of_lt {m : Nat} (h : Going m s) (less : m < n) :
    (s.limited (some n)).exhausted? = none := by
  show (some n).filter (· ≤ s.steps) = none
  rw [h.steps]
  simpa using less

/-- **A run under a limit** is the run without one, as long as the limit is not used up. -/
theorem runFor_limited {m allowance : Nat} (h : Going m s) (enough : m + allowance ≤ n) :
    (s.limited (some n)).runFor allowance
      = ((s.runFor allowance).1.limited (some n), (s.runFor allowance).2) := by
  induction allowance generalizing m s with
  | zero => rfl
  | succ allowance ih =>
    have stepped := step_limited (some n) h.exhausted (exhausted?_limited_of_lt h (by omega))
    rcases next : s.step with ⟨t, fault | _ | _⟩ <;> rw [next] at stepped <;>
      simp only [runFor, stepped, next]
    · rfl
    · exact ih (h.step next) (by omega)

/-! ## What uses a limit up -/

theorem hostCall_ne_stepLimit (n : Nat) : s.hostCall.2 ≠ .error (.stepLimit n) := by
  unfold hostCall
  dsimp only
  split
  · exact nofun
  · split
    · rename_i unread
      exact fun same => absurd (Memory.kind_of_readString unread) (Except.error.inj same ▸ nofun)
    · exact nofun
  · split
    · rename_i outside
      rw [(Memory.range_eq_error.1 outside).2]
      exact nofun
    · exact nofun
  · split
    · rename_i unread
      exact fun same => absurd (Memory.kind_of_readString unread) (Except.error.inj same ▸ nofun)
    · split <;> exact nofun
  · exact nofun
  · split <;> exact nofun
  · exact nofun

theorem execute_ne_stepLimit (i : Instruction) (n : Nat) : (s.execute i).2 ≠ .error (.stepLimit n) := by
  cases i with
  | branch | jump => rintro ⟨⟩
  | immediate | operation =>
    simp only [execute]
    split <;> rintro ⟨⟩
  | memory op =>
    cases op with
    | load =>
      simp only [execute]
      split
      · rename_i unread
        intro same
        rw [Except.error.inj same] at unread
        cases Memory.kind_of_readWord unread
      · rintro ⟨⟩
    | store =>
      simp only [execute]
      split
      · rename_i outside
        rw [(Memory.range_eq_error.1 outside).2]
        rintro ⟨⟩
      · rintro ⟨⟩
  | env op =>
    cases op with
    | call => exact hostCall_ne_stepLimit n
    | «break» => rintro ⟨⟩

theorem fetch_ne_stepLimit (n : Nat) : s.fetch ≠ .error (.stepLimit n) := by
  intro failed
  obtain unread | ⟨word, -, failed⟩ := Except.bind_eq_error.1 failed
  · cases Memory.kind_of_readWord unread
  · split at failed <;> cases failed

/-- **Only a limit that is used up** makes a step fail with the fault that says so. -/
theorem step_ne_stepLimit (unused : s.exhausted? = none) (n : Nat) :
    s.step.2 ≠ .error (.stepLimit n) := by
  by_cases stopped : s.pc = 0
  · rw [step, if_pos stopped]
    rintro ⟨⟩
  cases fetched : s.fetch with
  | error fault =>
    have eq : s.step = (s, .error fault) := by
      simp only [step, stopped, ↓reduceIte, unused, fetched]
    rw [eq]
    exact fun same => fetch_ne_stepLimit n (fetched.trans (congrArg _ (Except.error.inj same)))
  | ok i =>
    have carried := s.ready.execute_ne_stepLimit i n
    rcases executed : s.ready.execute i with ⟨t, fault | ⟨⟩⟩ <;> rw [executed] at carried
    · rw [step_of_fault stopped unused fetched executed]
      exact fun same => carried (congrArg _ (Except.error.inj same))
    · rw [step_of_fetch stopped unused fetched executed]
      dsimp only
      split <;> rintro ⟨⟩

/-- A run without a limit is still going, or ends with something else than a limit. -/
theorem Going.runFor {m : Nat} (h : Going n s) :
    (s.runFor m).2 = none ∧ Going (n + m) (s.runFor m).1
      ∨ ∃ result, (s.runFor m).2 = some result ∧ ∀ k, result ≠ .error (.stepLimit k) := by
  induction m generalizing n s with
  | zero => exact .inl ⟨rfl, h⟩
  | succ m ih =>
    have fault := step_ne_stepLimit h.exhausted
    rcases stepped : s.step with ⟨t, e | _ | _⟩ <;> simp only [State.runFor, stepped]
    · rw [stepped] at fault
      exact .inr ⟨_, rfl, fun k same => fault k (congrArg _ (Except.error.inj same))⟩
    · exact .inr ⟨_, rfl, fun _ => by rintro ⟨⟩⟩
    · obtain ⟨going, there⟩ | ends := ih (h.step stepped)
      · rw [Nat.succ_add] at there
        exact .inl ⟨going, there⟩
      · exact .inr ends

/-- A run keeps the parameters. -/
theorem config_runFor (s : State) (n : Nat) : (s.runFor n).1.config = s.config := by
  induction n generalizing s with
  | zero => rfl
  | succ n ih =>
    have kept := (keeps_step s).config
    rcases stepped : s.step with ⟨t, e | _ | _⟩ <;> rw [stepped] at kept <;>
      simp only [State.runFor, stepped]
    · exact kept
    · exact kept
    · exact (ih t).trans kept

/-- **A limit is used up** by a machine that is still going after so many steps. -/
theorem runFor_succ_limited {m allowance : Nat} (h : Going m s) (all : m + allowance = n)
    (going : (s.runFor allowance).2 = none) :
    (s.limited (some n)).runFor (allowance + 1)
      = ((s.runFor allowance).1.limited (some n), some (.error (.stepLimit n))) := by
  induction allowance generalizing m s with
  | zero =>
    have used : (s.limited (some n)).exhausted? = some n := by
      show (some n).filter (· ≤ s.steps) = some n
      rw [h.steps]
      simpa using Nat.le_of_eq all.symm
    have stepped : (s.limited (some n)).step = (s.limited (some n), .error (.stepLimit n)) := by
      rw [step, if_neg (show (s.limited (some n)).pc ≠ 0 from h.pc), used]
    simp only [runFor, stepped]
  | succ allowance ih =>
    have stepped := step_limited (some n) h.exhausted (exhausted?_limited_of_lt h (by omega))
    rcases next : s.step with ⟨t, e | _ | _⟩ <;> simp only [State.runFor, next] at going
    · cases going
    · cases going
    · rw [next] at stepped
      rw [State.runFor, stepped, State.runFor, next]
      exact ih (h.step next) (by omega) going

/-! ## Loading -/

/-- Loading does not look at the limit. -/
theorem load_limited (config : Config) (p : Program) (input : List UInt8) (limit : Option Nat) :
    load (config.limited limit) p input = (load config p input).map (·.limited limit) := by
  have valid : (config.limited limit).validate = config.validate := rfl
  have room : (config.limited limit).stackLimit = config.stackLimit := rfl
  have size : (config.limited limit).memorySize = config.memorySize := rfl
  have available : (config.limited limit).room = config.room := rfl
  simp only [load, valid, room, size, available, bind, Except.bind]
  split
  · rfl
  split
  · rfl
  split <;> rfl

/-- A machine that was just loaded is going. -/
theorem going_of_load {config : Config} {p : Program} {input : List UInt8}
    (loaded : load config p input = .ok s) : Going 0 (s.limited none) := by
  have again := load_limited config p input none
  rw [loaded] at again
  have order := inOrder_of_load again rfl
  exact ⟨rfl, order.going, by obtain ⟨-, -, rfl⟩ := load_eq_ok loaded; rfl⟩

/-- A run that ends without a limit within some steps ends alike under every limit that is no less. -/
theorem ends_of_runFor_eq_some {result : Except Fault Int32} (h : Going 0 s)
    (ended : (s.runFor n).2 = some result) {m : Nat} (le : n ≤ m) :
    (s.limited (some m)).Ends ((s.runFor n).1.limited (some m)) result := by
  have limited : (s.limited (some m)).runFor n = (_, _) := runFor_limited h (by omega)
  rw [ended] at limited
  exact ⟨n, limited⟩

/-- **A limit only truncates.** Whether a program can be loaded does not depend on the limit. A run
under a limit comes to an end. Unless it used the limit up, the runs under all larger limits and
without one end with the same machine, what it printed and counted included, and the same result. It
uses the limit up just if the run without one is still going after so many steps, and then it has
made so many and left the machine as they leave it. -/
theorem limit_truncates (config : Config) (p : Program) (input : List UInt8) (n : Nat) :
    (∀ limit, load (config.limited limit) p input = (load config p input).map (·.limited limit))
    ∧ ∀ s, load config p input = .ok s →
      (∃ t result, (s.limited (some n)).Ends t result)
      ∧ (∀ t result, (s.limited (some n)).Ends t result → result ≠ .error (.stepLimit n) →
        (∀ m, n < m → (s.limited (some m)).Ends (t.limited (some m)) result)
          ∧ (s.limited none).Ends (t.limited none) result)
      ∧ ((∃ t, (s.limited (some n)).Ends t (.error (.stepLimit n)))
        ↔ ((s.limited none).runFor n).2 = none)
      ∧ ∀ t, (s.limited (some n)).Ends t (.error (.stepLimit n)) →
        t.steps = n ∧ t.output = ((s.limited none).runFor n).1.output
          ∧ t = ((s.limited none).runFor n).1.limited (some n) := by
  refine ⟨load_limited config p input, fun s loaded => ?_⟩
  have start := going_of_load loaded
  obtain ⟨going, there⟩ | ⟨result, ended, other⟩ := start.runFor (m := n)
  · -- Still going after `n` steps: the next one finds the limit used up.
    rw [Nat.zero_add] at there
    have cut : (s.limited (some n)).Ends (((s.limited none).runFor n).1.limited (some n))
        (.error (.stepLimit n)) := ⟨n + 1, runFor_succ_limited start (Nat.zero_add n) going⟩
    refine ⟨⟨_, _, cut⟩, fun t result ends other => absurd (ends.unique cut).2 other,
      ⟨fun _ => going, fun _ => ⟨_, cut⟩⟩, fun t ends => ?_⟩
    obtain ⟨rfl, -⟩ := ends.unique cut
    exact ⟨there.steps, rfl, rfl⟩
  · -- Over within `n` steps: every limit from `n` on leaves room for them.
    have here := ends_of_runFor_eq_some start ended (Nat.le_refl n)
    refine ⟨⟨_, _, here⟩, fun t result' ends _ => ?_, ⟨fun ⟨t, ends⟩ => ?_, fun going => ?_⟩,
      fun t ends => absurd (here.unique ends).2 (other n)⟩
    · obtain ⟨rfl, rfl⟩ := ends.unique here
      refine ⟨fun m less => ends_of_runFor_eq_some start ended (Nat.le_of_lt less), n,
        Prod.ext ?_ ended⟩
      exact (limited_of_maxSteps (congrArg Config.maxSteps (config_runFor (s.limited none) n))).symm
    · exact absurd (here.unique ends).2 (other n)
    · rw [ended] at going
      cases going

/-- A machine that goes round in circles uses every limit up; one that stops with its first step
uses only the limit up that allows none. -/
theorem limit_truncates_small :
    (∃ s, load ⟨64, 16, none⟩ ⟨[], [0xf0000000]⟩ [] = .ok s
      ∧ ∃ t, (s.limited (some 3)).Ends t (.error (.stepLimit 3)) ∧ t.steps = 3)
    ∧ ∃ s, load ⟨64, 16, none⟩ ⟨[], [0x80200000]⟩ [] = .ok s
      ∧ (∃ t, (s.limited (some 1)).Ends t (.ok 0) ∧ (s.limited none).Ends (t.limited none) (.ok 0))
      ∧ ∃ t, (s.limited (some 0)).Ends t (.error (.stepLimit 0)) := by
  constructor
  · obtain ⟨s, loaded, going⟩ : ∃ s, load ⟨64, 16, none⟩ ⟨[], [0xf0000000]⟩ [] = .ok s
      ∧ ((s.limited none).runFor 3).2 = none := ⟨_, rfl, by cbv⟩
    obtain ⟨-, -, used, left⟩ := (limit_truncates ⟨64, 16, none⟩ ⟨[], [0xf0000000]⟩ [] 3).2 s loaded
    obtain ⟨t, ends⟩ := used.2 going
    exact ⟨s, loaded, t, ends, (left t ends).1⟩
  · obtain ⟨s, loaded, stops, going⟩ : ∃ s, load ⟨64, 16, none⟩ ⟨[], [0x80200000]⟩ [] = .ok s
      ∧ ((s.limited (some 1)).runFor 1).2 = some (.ok 0) ∧ ((s.limited none).runFor 0).2 = none :=
      ⟨_, rfl, by cbv, rfl⟩
    have all := fun n => (limit_truncates ⟨64, 16, none⟩ ⟨[], [0x80200000]⟩ [] n).2 s loaded
    have ends : (s.limited (some 1)).Ends _ (.ok 0) := ⟨1, Prod.ext rfl stops⟩
    have truncates := (all 1).2.1 _ _ ends (by rintro ⟨⟩)
    exact ⟨s, loaded, ⟨_, ends, truncates.2⟩, (all 0).2.2.1.2 going⟩

end State

end Polyglot.Machine
