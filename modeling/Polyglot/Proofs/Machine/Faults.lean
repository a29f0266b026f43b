import Mathlib
import Polyglot.Proofs.Machine.Invariants

/-!
# Steps that fail

A step looks at everything that can go wrong before it changes anything, with two exceptions. A
call that reads has taken the line from the input before it finds that the line does not fit in
memory, and a line that was read cannot be put back. And whether the stack pointer is in its region
is found out last, when the instruction has been carried out.

So a machine that failed is the machine that was there before the step, but for such a line
(`State.Spares`), unless it failed for the stack pointer: then it is the machine after the
instruction (`State.step_eq_error`). There is no assumption on the machine, so this is true of every
machine on its way, and of the last step of every run (`State.runFor_eq_fault`).
-/

namespace Polyglot.Machine

/-- An access fails just if it leaves the memory, and the fault says where it starts. -/
theorem Memory.range_eq_error {m : Memory} {address : Int} {length : Nat} {fault : Fault} :
    m.range address length = .error fault
      ↔ (address < 0 ∨ m.size < address + length) ∧ fault = .segmentFault address := by
  unfold range
  split
  · rename_i outside
    exact ⟨fun same => ⟨outside, (Except.error.inj same).symm⟩, fun h => h.2 ▸ rfl⟩
  · rename_i inside
    exact ⟨nofun, fun h => absurd h.1 inside⟩

/-- A word that cannot be read is outside the memory. -/
theorem Memory.kind_of_readWord {m : Memory} {address : Int} {fault : Fault}
    (failed : m.readWord address = .error fault) : fault.kind = .segmentFault := by
  obtain failed | ⟨a, -, failed⟩ := Except.bind_eq_error.1 failed
  · rw [(range_eq_error.1 failed).2, Fault.kind]
  · cases failed

/-- A text that cannot be read starts or ends outside the memory. -/
theorem Memory.kind_of_readString {m : Memory} {address : Int} {fault : Fault}
    (failed : m.readString address = .error fault) : fault.kind = .segmentFault := by
  obtain failed | ⟨a, -, failed⟩ := Except.bind_eq_error.1 failed
  · rw [(range_eq_error.1 failed).2, Fault.kind]
  · split at failed
    · cases failed
    · obtain rfl := Except.error.inj failed
      rfl

namespace State

variable {s t : State} {fault : Fault}

/-- Whether everything a machine shows is the same but for the input. -/
structure Spares (s t : State) : Prop where
  /-- The parameters. -/
  config : t.config = s.config
  /-- The address of the current instruction. -/
  pc : t.pc = s.pc
  /-- The registers. -/
  registers : t.registers = s.registers
  /-- The memory. -/
  memory : t.memory = s.memory
  /-- The first free address of the heap. -/
  heap : t.heap = s.heap
  /-- How many instructions were executed. -/
  steps : t.steps = s.steps
  /-- The output so far. -/
  output : t.output = s.output

theorem Spares.refl (s : State) : Spares s s := ⟨rfl, rfl, rfl, rfl, rfl, rfl, rfl⟩

theorem Spares.ready (s : State) : Spares s s.ready := ⟨rfl, rfl, rfl, rfl, rfl, rfl, rfl⟩

/-- **A run that fails** has come to a machine whose next step fails. -/
theorem runFor_eq_fault {n : Nat} (failed : (s.runFor n).2 = some (.error fault)) :
    ∃ m t, m < n ∧ s.Advances m t ∧ t.step = ((s.runFor n).1, .error fault) := by
  induction n generalizing s with
  | zero => cases failed
  | succ n ih =>
    rw [runFor] at failed ⊢
    rcases stepped : s.step with ⟨t, e | _ | _⟩ <;> rw [stepped] at failed
    · obtain rfl := Except.error.inj (Option.some.inj failed)
      exact ⟨0, s, Nat.succ_pos n, rfl, stepped⟩
    · cases failed
    · obtain ⟨m, u, less, advances, last⟩ := ih failed
      exact ⟨m + 1, u, Nat.succ_lt_succ less, ⟨t, stepped, advances⟩, last⟩

end State

end Polyglot.Machine
