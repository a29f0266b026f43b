import Polyglot.Proofs.Machine.Contents

/-!
# Steps of the machine

A machine that fetches an instruction carries it out and goes on. This module says
what comes out of that in the terms of the instruction alone (`State.step_of_fetch`),
so that what is known of an instruction need not be taken apart from a step again.

Addresses are sums of 32-bit words, and they do not go round as long as they lie in
a memory that a machine can have (`toInt_add_ofInt`).

A machine that goes on for a number of steps *advances* to another one
(`State.Advances`), and what it does from there on is what it does at all, after that
many steps (`State.Advances.runFor_add`).
-/

namespace Polyglot.Machine

/-- A sum that is a 32-bit number is the sum of the numbers. -/
theorem toInt_add_ofInt {a : Int32} {v : Int} (lower : -0x80000000 ≤ a.toInt + v)
    (upper : a.toInt + v < 0x80000000) : (a + Int32.ofInt v).toInt = a.toInt + v := by
  rw [Int32.toInt_add, Int32.toInt_ofInt, Int.add_bmod_bmod]
  exact Int.bmod_eq_of_le (by show -0x80000000 ≤ _; omega) (by show _ < 0x80000000; omega)

namespace State

/-- The machine after an instruction was carried out, going on with the next one. -/
def moved (s : State) : State := { s with pc := s.nextPc, steps := s.steps + 1 }

/-- The machine that is about to carry out an instruction. -/
def ready (s : State) : State := { s with nextPc := s.pc + 4 }

variable {s s' s'' : State} {i : Instruction} {n m : Nat}

/-- A step carries out the instruction that is fetched. -/
theorem step_of_fetch (going : s.pc ≠ 0) (unlimited : s.exhausted? = none)
    (fetched : s.fetch = .ok i) (executed : s.ready.execute i = (s', .ok ())) :
    s.step = (s'.moved,
      if (s'.registers.get .sp).toInt < s'.config.stackLimit then
        .error (.stackOverflow (s'.registers.get .sp) s'.config.stackLimit)
      else .ok (s'.nextPc != 0)) := by
  unfold ready at executed
  simp only [step, going, ↓reduceIte, unlimited, fetched, executed]
  split <;> rfl

/-- The machine after a step that carries out an instruction. -/
theorem step_fst_of_fetch (going : s.pc ≠ 0) (unlimited : s.exhausted? = none)
    (fetched : s.fetch = .ok i) (executed : s.ready.execute i = (s', .ok ())) :
    s.step.1 = s'.moved := by
  rw [step_of_fetch going unlimited fetched executed]

/-- A step ends with the fault of the instruction that is fetched. -/
theorem step_of_fault (going : s.pc ≠ 0) (unlimited : s.exhausted? = none)
    (fetched : s.fetch = .ok i) {fault : Fault}
    (executed : s.ready.execute i = (s', .error fault)) : s.step = (s', .error fault) := by
  unfold ready at executed
  simp only [step, going, ↓reduceIte, unlimited, fetched, executed]

/-- A branch that is taken if two registers differ. -/
theorem execute_bne {a b : Register} (differ : s.readRegister a ≠ s.readRegister b)
    (offset : Int32) :
    s.execute (.branch .bne a b offset) = ({ s with nextPc := s.pc + offset }, .ok ()) := by
  simp [execute, differ]

/-- A register that was written last is read after the step. -/
theorem readRegister_moved_writeRegister {d : Register} (nonzero : d ≠ .zero) (value : Int32) :
    (s.writeRegister d value).moved.readRegister d = value := by
  unfold readRegister writeRegister moved
  split
  · rfl
  · exact Registers.get_set_self nonzero

/-! ## Several steps -/

/-- Whether a machine becomes another one in a number of steps and is going all the
while. -/
def Advances : Nat → State → State → Prop
  | 0, s, s' => s = s'
  | n + 1, s, s' => ∃ t, s.step = (t, .ok true) ∧ Advances n t s'

namespace Advances

theorem trans (first : Advances n s s') (second : Advances m s' s'') :
    Advances (n + m) s s'' := by
  induction n generalizing s with
  | zero =>
    obtain rfl : s = s' := first
    rwa [Nat.zero_add]
  | succ n ih =>
    obtain ⟨t, stepped, rest⟩ := first
    rw [Nat.succ_add]
    exact ⟨t, stepped, ih rest⟩

/-- A run goes on from where the machine has advanced to. -/
theorem runFor_add (h : Advances n s s') (m : Nat) : s.runFor (n + m) = s'.runFor m := by
  induction n generalizing s with
  | zero =>
    obtain rfl : s = s' := h
    rw [Nat.zero_add]
  | succ n ih =>
    obtain ⟨t, stepped, rest⟩ := h
    rw [Nat.succ_add, runFor, stepped]
    exact ih rest

/-- The machine is going after as many steps as it advances. -/
theorem runFor_self (h : Advances n s s') : s.runFor n = (s', none) :=
  h.runFor_add 0

end Advances

/-- Whether the stack pointer goes below the stack limit at some time. -/
def Overflows (s : State) : Prop :=
  ∃ n sp limit, (s.runFor n).2 = some (.error (.stackOverflow sp limit))

theorem Advances.overflows (h : Advances n s s') (overflows : s'.Overflows) : s.Overflows := by
  obtain ⟨m, sp, limit, eq⟩ := overflows
  exact ⟨n + m, sp, limit, by rw [h.runFor_add, eq]⟩

/-- A step that carries out an instruction is one of a machine that goes on, unless the
stack pointer went too low or the program has come to its end. -/
theorem advances_of_fetch (going : s.pc ≠ 0) (unlimited : s.exhausted? = none)
    (fetched : s.fetch = .ok i) (executed : s.ready.execute i = (s', .ok ()))
    (keeps : ¬ s.Overflows) (next : s'.nextPc ≠ 0) :
    Advances 1 s s'.moved ∧ s'.config.stackLimit ≤ (s'.registers.get .sp).toInt := by
  have stepped := step_of_fetch going unlimited fetched executed
  by_cases low : (s'.registers.get .sp).toInt < s'.config.stackLimit
  · exact absurd ⟨1, s'.registers.get .sp, s'.config.stackLimit, by
      rw [runFor, stepped, if_pos low]⟩ keeps
  · rw [if_neg low, bne_iff_ne.2 next] at stepped
    exact ⟨⟨s'.moved, stepped, rfl⟩, Int.not_lt.1 low⟩

/-! ## What was printed -/

/-- Whether a machine has printed what another one has, and maybe more. -/
def Prolongs (s s' : State) : Prop := s.output.toList <+: s'.output.toList

theorem prolongs_of_eq (eq : s'.output = s.output) : s.Prolongs s' := by
  unfold Prolongs
  exact eq ▸ List.prefix_refl _

theorem prolongs_append {bytes : Array UInt8} : s.Prolongs { s with output := s.output ++ bytes } := by
  unfold Prolongs
  rw [Array.toList_append]
  exact List.prefix_append _ _

theorem output_writeRegister {r : Register} {value : Int32} :
    (s.writeRegister r value).output = s.output := by
  unfold writeRegister
  split <;> rfl

theorem prolongs_hostCall : s.Prolongs s.hostCall.1 := by
  unfold hostCall
  dsimp only
  split
  · exact prolongs_of_eq rfl
  · split
    · exact prolongs_of_eq rfl
    · exact prolongs_append
  · split <;> exact prolongs_of_eq rfl
  · split
    · exact prolongs_of_eq rfl
    · split <;> exact prolongs_of_eq rfl
  · exact prolongs_append
  · split <;> exact prolongs_of_eq rfl
  · exact prolongs_of_eq rfl

theorem prolongs_execute (i : Instruction) : s.Prolongs (s.execute i).1 := by
  cases i with
  | branch op a b offset =>
    refine prolongs_of_eq ?_
    cases op <;> simp only [execute] <;> split <;> rfl
  | immediate op d a imm =>
    simp only [execute]
    split
    · exact prolongs_of_eq rfl
    · exact prolongs_of_eq output_writeRegister
  | operation op d a b =>
    simp only [execute]
    split
    · exact prolongs_of_eq rfl
    · exact prolongs_of_eq output_writeRegister
  | memory op r base offset =>
    cases op with
    | load =>
      simp only [execute]
      split
      · exact prolongs_of_eq rfl
      · exact prolongs_of_eq output_writeRegister
    | store =>
      simp only [execute]
      split <;> exact prolongs_of_eq rfl
  | jump offset => exact prolongs_of_eq rfl
  | env op =>
    cases op with
    | call => exact prolongs_hostCall
    | «break» => exact prolongs_of_eq rfl

theorem prolongs_step : s.Prolongs s.step.1 := by
  unfold step
  split
  · exact prolongs_of_eq rfl
  split
  · exact prolongs_of_eq rfl
  split
  · exact prolongs_of_eq rfl
  rename_i i fetched
  have executed := prolongs_execute (s := { s with nextPc := s.pc + 4 }) i
  split
  · rename_i t e eq
    rw [eq] at executed
    exact executed
  · rename_i t eq
    rw [eq] at executed
    dsimp only
    split <;> exact executed

/-- **What was printed** stays as it is when the machine is run for longer. -/
theorem prolongs_runFor (le : n ≤ m) : (s.runFor n).1.Prolongs (s.runFor m).1 := by
  induction n generalizing s m with
  | zero =>
    show s.Prolongs _
    clear le
    induction m generalizing s with
    | zero => exact prolongs_of_eq rfl
    | succ m ih =>
      have first := s.prolongs_step
      unfold runFor
      split <;> rename_i eq <;> rw [eq] at first
      · exact first
      · exact first
      · exact first.trans ih
  | succ n ih =>
    cases m with
    | zero => exact absurd le (Nat.not_succ_le_zero n)
    | succ m =>
      unfold runFor
      split
      · exact prolongs_of_eq rfl
      · exact prolongs_of_eq rfl
      · exact ih (Nat.le_of_succ_le_succ le)

/-! ## How runs end -/

/-- A machine that has stopped is not run any further. -/
theorem runFor_eq_of_le (le : n ≤ m) (stopped : (s.runFor n).2.isSome) :
    s.runFor m = s.runFor n := by
  induction n generalizing s m with
  | zero => cases stopped
  | succ n ih =>
    cases m with
    | zero => exact absurd le (Nat.not_succ_le_zero n)
    | succ m =>
      unfold runFor at stopped ⊢
      split
      · rfl
      · rfl
      · rename_i eq
        rw [eq] at stopped
        exact ih (Nat.le_of_succ_le_succ le) stopped

/-- A machine stops in one way only. -/
theorem runFor_eq_of_stopped (stopped : (s.runFor n).2.isSome) (stopped' : (s.runFor m).2.isSome) :
    s.runFor m = s.runFor n := by
  rcases Nat.le_total n m with le | le
  · exact runFor_eq_of_le le stopped
  · exact (runFor_eq_of_le le stopped').symm

/-- A machine that ends with an exit code is never stopped as the stack pointer went too
low. -/
theorem not_overflows_of_runFor {code : Int32} (ends : (s.runFor n).2 = some (.ok code)) :
    ¬ s.Overflows := by
  rintro ⟨m, sp, limit, overflows⟩
  have same := runFor_eq_of_stopped (by rw [ends]; rfl) (by rw [overflows]; rfl)
  rw [same, ends] at overflows
  cases overflows

/-- Whether a machine ends with an exit code, having printed something. -/
def Exits (s : State) (code : Int32) (output : Array UInt8) : Prop :=
  ∃ n s', s.runFor n = (s', some (.ok code)) ∧ s'.output = output

/-- Whether a machine stops with a fault, having printed something. -/
def Fails (s : State) (fault : Fault) (output : Array UInt8) : Prop :=
  ∃ n s', s.runFor n = (s', some (.error fault)) ∧ s'.output = output

theorem Exits.unique {code code' : Int32} {output output' : Array UInt8} (h : s.Exits code output)
    (h' : s.Exits code' output') : code = code' := by
  obtain ⟨n, s', ends, -⟩ := h
  obtain ⟨m, s'', ends', -⟩ := h'
  have same := runFor_eq_of_stopped (by rw [ends]; rfl) (by rw [ends']; rfl)
  rw [ends, ends'] at same
  cases same
  rfl

theorem Exits.not_fails {code : Int32} {fault : Fault} {output output' : Array UInt8}
    (h : s.Exits code output) : ¬ s.Fails fault output' := by
  rintro ⟨m, s'', ends', -⟩
  obtain ⟨n, s', ends, -⟩ := h
  have same := runFor_eq_of_stopped (by rw [ends]; rfl) (by rw [ends']; rfl)
  rw [ends, ends'] at same
  cases same

/-- Whether a machine never stops. -/
def NeverStops (s : State) : Prop := ∀ n, (s.runFor n).2 = none

/-- Whether a machine has printed something at some time, and maybe more. -/
def Prints (s : State) (text : List UInt8) : Prop :=
  ∃ n, text <+: (s.runFor n).1.output.toList

end State

end Polyglot.Machine
