import Polyglot.Proofs.Assembly.Linking
import Polyglot.Proofs.Assembly.Running
import Polyglot.Proofs.Machine.Accesses

/-!
# Stretches of a listing

What the commands do in a stretch that leaves the stack pointer alone (`Setup.Runs`), with accesses to
any address: the word is in the memory, or the machine stops with a segment fault.
-/

namespace Polyglot.Assembly

open Polyglot.Machine (Register Setup View State Memory Fault)

namespace Listing

section

variable {l : Listing} {x : Setup} {k : Nat} {v : View} {r base : Register} {distance : Int} {fault : Fault}
  (assembled : l.assemble = .ok x.program)

include assembled

/-- A number is put into a register. -/
theorem runs_put_int {value : Int} (orders : l.Orders k (.put r (.int value))) (ne : r ≠ .pc) (ne' : r ≠ .sp) :
    x.Runs (l.before k) v (l.before (k + 1)) (v.set r (Int32.ofInt value)) := by
  obtain ⟨place, instructions, lowered, next, has⟩ := orders.has assembled
  obtain ⟨word, made, eq⟩ := Except.bind_eq_ok.1 lowered
  obtain rfl := Except.pure_eq_ok.1 eq
  obtain ⟨-, rfl⟩ := wordOf_eq_ok (Except.mapError_eq_ok.1 made)
  refine .of_sound fun sound => ?_
  rw [next]
  refine Setup.runs_immediate (has 0 _ rfl) ne ne' (by decide) ?_
  rw [State.compute?, sound.zero, Int32.zero_add]

/-- The address of a text is put into a register. -/
theorem runs_put_constant {index : Nat} (orders : l.Orders k (.put r (.constant index))) (ne : r ≠ .pc)
    (ne' : r ≠ .sp) : ∃ start, constantStart? l.constants index = some start
      ∧ x.Runs (l.before k) v (l.before (k + 1)) (v.set r (Int32.ofInt (Machine.loadAddress + start : Nat))) := by
  obtain ⟨place, instructions, lowered, next, has⟩ := orders.has assembled
  obtain ⟨distance, found, lowered⟩ := Except.bind_eq_ok.1 lowered
  obtain ⟨word, made, eq⟩ := Except.bind_eq_ok.1 lowered
  obtain rfl := Except.pure_eq_ok.1 eq
  obtain ⟨-, rfl⟩ := wordOf_eq_ok (Except.mapError_eq_ok.1 made)
  obtain ⟨start, there, rfl⟩ := constantOffset_eq_ok found
  refine ⟨start, there, ?_⟩
  have address : Int32.ofInt (x.program.address (l.before k))
        + Int32.ofInt (-(4 * (l.before k : Int) + ((dataSize l.scope.constants : Int) - start)))
      = Int32.ofInt (Machine.loadAddress + start : Nat) := by
    rw [← Int32.ofInt_add]
    refine congrArg Int32.ofInt ?_
    have same : dataSize l.scope.constants = x.program.dataSize := (dataSize_eq assembled).symm
    unfold Machine.Program.address Machine.Program.entryPoint
    rw [same]
    omega
  rw [next, ← address]
  exact Setup.runs_address (has 0 _ rfl) ne ne'

/-- An operation on a register and a number that is not turned round. -/
theorem runs_computeWith {op : Machine.AluOp} {a : Register} {right : Int} {value : Int32}
    (orders : l.Orders k (.computeWith ⟨op, false⟩ r a right)) (ne : r ≠ .pc) (ne' : r ≠ .sp) (ne'' : a ≠ .pc)
    (computed : State.compute? op (v.get a) (Int32.ofInt right) = some value) :
    x.Runs (l.before k) v (l.before (k + 1)) (v.set r value) := by
  obtain ⟨place, instructions, lowered, next, has⟩ := orders.has assembled
  obtain ⟨word, made, eq⟩ := Except.bind_eq_ok.1 lowered
  obtain rfl := Except.pure_eq_ok.1 eq
  obtain ⟨-, rfl⟩ := wordOf_eq_ok (Except.mapError_eq_ok.1 made)
  rw [next]
  exact Setup.runs_immediate (has 0 _ rfl) ne ne' ne'' computed

/-- A word is loaded. -/
theorem runs_load (orders : l.Orders k (.load r base distance)) (ne : r ≠ .pc) (ne' : r ≠ .sp) (ne'' : base ≠ .pc)
    {word : UInt32} (read : v.memory.readWord ((v.get base).toInt + distance) = .ok word) :
    x.Runs (l.before k) v (l.before (k + 1)) (v.set r word.toInt32) := by
  obtain ⟨place, instructions, lowered, next, has⟩ := orders.has assembled
  obtain ⟨offset, made, eq⟩ := Except.bind_eq_ok.1 lowered
  obtain rfl := Except.pure_eq_ok.1 eq
  rw [← toInt_of_wordOf (Except.mapError_eq_ok.1 made)] at read
  rw [next]
  exact Setup.runs_load (has 0 _ rfl) ne ne' ne'' read

/-- A word is not there to be loaded. -/
theorem breaks_load (orders : l.Orders k (.load r base distance)) (ne : base ≠ .pc)
    (outside : v.memory.readWord ((v.get base).toInt + distance) = .error fault) :
    x.Breaks (l.before k) v fault := by
  obtain ⟨place, instructions, lowered, next, has⟩ := orders.has assembled
  obtain ⟨offset, made, eq⟩ := Except.bind_eq_ok.1 lowered
  obtain rfl := Except.pure_eq_ok.1 eq
  rw [← toInt_of_wordOf (Except.mapError_eq_ok.1 made)] at outside
  exact Setup.breaks_load (has 0 _ rfl) ne outside

/-- A word is put on the stack. -/
theorem runs_store {address : Nat} (orders : l.Orders k (.store r base distance)) (ne : r ≠ .pc) (ne' : base ≠ .pc)
    (there : (v.get base).toInt + distance = address) (low : x.config.stackLimit ≤ address)
    (high : address + 4 ≤ x.config.memorySize) :
    x.Runs (l.before k) v (l.before (k + 1)) (v.store address (v.get r)) := by
  obtain ⟨place, instructions, lowered, next, has⟩ := orders.has assembled
  obtain ⟨offset, made, eq⟩ := Except.bind_eq_ok.1 lowered
  obtain rfl := Except.pure_eq_ok.1 eq
  rw [← toInt_of_wordOf (Except.mapError_eq_ok.1 made)] at there
  rw [next]
  exact Setup.runs_store (has 0 _ rfl) ne ne' there low high

/-- A word is stored. -/
theorem leaves_store {memory : Memory} (orders : l.Orders k (.store r base distance)) (ne : r ≠ .pc)
    (ne' : base ≠ .pc)
    (written : v.memory.writeWord ((v.get base).toInt + distance) (v.get r).toUInt32 = .ok memory) :
    x.Leaves (l.before k) v (l.before (k + 1)) memory := by
  obtain ⟨place, instructions, lowered, next, has⟩ := orders.has assembled
  obtain ⟨offset, made, eq⟩ := Except.bind_eq_ok.1 lowered
  obtain rfl := Except.pure_eq_ok.1 eq
  rw [← toInt_of_wordOf (Except.mapError_eq_ok.1 made)] at written
  rw [next]
  exact Setup.leaves_store (has 0 _ rfl) ne ne' written

/-- There is no word to be stored to. -/
theorem breaks_store (orders : l.Orders k (.store r base distance)) (ne : base ≠ .pc)
    (outside : v.memory.writeWord ((v.get base).toInt + distance) (v.get r).toUInt32 = .error fault) :
    x.Breaks (l.before k) v fault := by
  obtain ⟨place, instructions, lowered, next, has⟩ := orders.has assembled
  obtain ⟨offset, made, eq⟩ := Except.bind_eq_ok.1 lowered
  obtain rfl := Except.pure_eq_ok.1 eq
  rw [← toInt_of_wordOf (Except.mapError_eq_ok.1 made)] at outside
  exact Setup.breaks_store (has 0 _ rfl) ne outside

end

end Listing

end Polyglot.Assembly
