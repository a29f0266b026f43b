import Polyglot.Proofs.Assembly.Linking
import Polyglot.Proofs.Machine.Views

/-!
# Running the lines of a listing

What the lines of a listing do when their program runs: each command takes the machine
from the place of its line to the place of the next line, or of the label that it
refers to. A label by itself does nothing, for it has no words.

Commands are told apart by what the line says (`Listing.Orders`), so nothing here
depends on how a listing was made.
-/

namespace Polyglot.Assembly

open Polyglot.Source
open Polyglot.Machine (Register AluOp Instruction Setup View State)

namespace Operation

/-- What is made of the result of the machine's operation. -/
def finish (o : Operation) (result : Int32) : Int32 :=
  if o.negated then (if result = 0 then 1 else 0) else result

/-- The result of an operation, if it has one. -/
def compute? (o : Operation) (a b : Int32) : Option Int32 :=
  (State.compute? o.op a b).map o.finish

end Operation

namespace Listing

/-- Whether the line with a number is a command. -/
def Orders (l : Listing) (k : Nat) (c : Command) : Prop :=
  ∃ mnemonic operands place, l.lines[k]? = some (.instruction mnemonic operands place)
    ∧ Command.ofLine mnemonic operands place = .ok c

/-- Whether the line with a number is a label. -/
def Marks (l : Listing) (k : Nat) (name : String) : Prop :=
  ∃ place, l.lines[k]? = some (.label name place)

/-- The address of the text with a number, in every machine. -/
def textAddress (l : Listing) (index : Nat) : Int32 :=
  Int32.ofInt (Machine.loadAddress + (dataBytes (l.constants.take index)).length : Nat)

variable {l : Listing} {x : Setup} {k m : Nat} {name : String} {v : View}

/-- What is known of a line that is a command. -/
theorem Orders.has (assembled : l.assemble = .ok x.program) {c : Command} (orders : l.Orders k c) :
    ∃ place instructions, l.scope.lower (l.before k) place c = .ok instructions
      ∧ l.before (k + 1) = l.before k + instructions.length
      ∧ ∀ j i, instructions[j]? = some i → x.program.Has (l.before k + j) i := by
  obtain ⟨mnemonic, operands, place, there, checked⟩ := orders
  obtain ⟨command, instructions, checked', lowered, next, has⟩ := has_of_line assembled there
  obtain rfl := Except.ok.inj (checked.symm.trans checked')
  exact ⟨place, instructions, lowered, next, has⟩

/-- A label has no words. -/
theorem Marks.before_succ (assembled : l.assemble = .ok x.program) (marks : l.Marks k name) :
    l.before (k + 1) = l.before k := by
  obtain ⟨place, there⟩ := marks
  obtain ⟨words, made, makes⟩ := makes_of_line assembled there
  obtain rfl : words = [] := makes
  simp [before, List.take_add_one, made]

/-- The distance to a label, in a word. -/
theorem Marks.distance (assembled : l.assemble = .ok x.program) (marks : l.Marks m name)
    {site : Nat} {place : Span} {offset : Int32}
    (found : (do (wordOf (← l.scope.labelOffset name site place)).mapError (.encoding site place))
      = Except.ok offset) :
    offset.toInt = ((l.before m : Int) - site) * 4 := by
  obtain ⟨place', there⟩ := marks
  rw [Scope.labelOffset, lookup_label assembled there] at found
  exact toInt_of_wordOf (Except.mapError_eq_ok.1 found)

/-- After its result, an operation is turned round if that is what is asked for. -/
theorem goes_turned {o : Operation} {d : Register}
    {i : Instruction} {result : Int32}
    (next : l.before (k + 1) = l.before k
      + (i :: if o.negated then [Instruction.immediate .eq d d 0] else []).length)
    (has : ∀ j i', (i :: if o.negated then [Instruction.immediate .eq d d 0] else [])[j]? = some i'
      → x.program.Has (l.before k + j) i')
    (ne : d ≠ .pc) (nonzero : d ≠ .zero)
    (first : x.Goes 1 (l.before k + 0) v (l.before k + 0 + 1) (v.set d result)) :
    x.Goes 1 (l.before k) v (l.before (k + 1)) (v.set d (o.finish result)) := by
  rw [next]
  unfold Operation.finish
  cases negated : o.negated with
  | false => exact first
  | true =>
    rw [negated] at has
    have second : x.Goes 1 (l.before k + 1) (v.set d result) (l.before k + 1 + 1)
        ((v.set d result).set d (if result = 0 then 1 else 0)) := by
      refine Setup.goes_immediate (has 1 _ rfl) ne ne ?_
      rw [View.get_set_self nonzero]
      simp [State.compute?]
    rw [View.set_set] at second
    exact (first.trans second).mono (by omega)

section

variable (assembled : l.assemble = .ok x.program)

include assembled

/-- A number is put into a register. -/
theorem goes_put_int {d : Register} {value : Int} (orders : l.Orders k (.put d (.int value)))
    (ne : d ≠ .pc) :
    x.Goes 1 (l.before k) v (l.before (k + 1)) (v.set d (Int32.ofInt value)) := by
  obtain ⟨place, instructions, lowered, next, has⟩ := orders.has assembled
  obtain ⟨word, made, eq⟩ := Except.bind_eq_ok.1 lowered
  obtain rfl := Except.pure_eq_ok.1 eq
  obtain ⟨-, rfl⟩ := wordOf_eq_ok (Except.mapError_eq_ok.1 made)
  refine .of_sound fun sound => ?_
  rw [next]
  refine Setup.goes_immediate (has 0 _ rfl) ne (by decide) ?_
  rw [State.compute?, sound.zero, Int32.zero_add]

/-- The address of a label is put into a register. -/
theorem goes_put_label {d : Register} (orders : l.Orders k (.put d (.label name)))
    (marks : l.Marks m name) (ne : d ≠ .pc) :
    x.Goes 1 (l.before k) v (l.before (k + 1))
      (v.set d (Int32.ofInt (x.program.address (l.before m)))) := by
  obtain ⟨place, instructions, lowered, next, has⟩ := orders.has assembled
  obtain ⟨distance, found, lowered⟩ := Except.bind_eq_ok.1 lowered
  obtain ⟨offset, found', eq⟩ := Except.bind_eq_ok.1 lowered
  obtain rfl := Except.pure_eq_ok.1 eq
  rw [next]
  exact Setup.goes_address (has 0 _ rfl) ne (l.before_le assembled m)
    (marks.distance assembled (Except.bind_eq_ok.2 ⟨distance, found, found'⟩))

/-- From every instruction, the distance to a text leads to its address. -/
theorem add_constantOffset {index site : Nat} {place : Span} {distance : Int}
    (found : l.scope.constantOffset index site place = .ok distance) :
    Int32.ofInt (x.program.address site) + Int32.ofInt distance = l.textAddress index := by
  obtain ⟨start, there, rfl⟩ := constantOffset_eq_ok found
  obtain ⟨-, starts⟩ := Option.ite_none_right_eq_some.1 there
  obtain rfl : (dataBytes (l.constants.take index)).length = start := Option.some.inj starts
  have size : x.program.dataSize = dataSize l.scope.constants := dataSize_eq assembled
  rw [textAddress, ← Int32.ofInt_add, Machine.Program.address, Machine.Program.entryPoint, size]
  congr 1
  omega

/-- The address of a text is put into a register. -/
theorem goes_put_text {d : Register} {index : Nat} (orders : l.Orders k (.put d (.constant index)))
    (ne : d ≠ .pc) :
    x.Goes 1 (l.before k) v (l.before (k + 1)) (v.set d (l.textAddress index)) := by
  obtain ⟨place, instructions, lowered, next, has⟩ := orders.has assembled
  obtain ⟨distance, found, lowered⟩ := Except.bind_eq_ok.1 lowered
  obtain ⟨offset, made, eq⟩ := Except.bind_eq_ok.1 lowered
  obtain rfl := Except.pure_eq_ok.1 eq
  obtain ⟨-, rfl⟩ := wordOf_eq_ok (Except.mapError_eq_ok.1 made)
  rw [next, ← add_constantOffset assembled found]
  exact Setup.goes_relative (has 0 _ rfl) ne

/-- A word is taken from memory. -/
theorem goes_load {d base : Register} {distance : Int} {address : Nat} {value : Int32}
    (orders : l.Orders k (.load d base distance)) (ne : d ≠ .pc) (ne' : base ≠ .pc)
    (there : (v.get base).toInt + distance = address)
    (holds : v.memory.Holds address (Machine.wordBytes value.toUInt32)) :
    x.Goes 1 (l.before k) v (l.before (k + 1)) (v.set d value) := by
  obtain ⟨place, instructions, lowered, next, has⟩ := orders.has assembled
  obtain ⟨offset, made, eq⟩ := Except.bind_eq_ok.1 lowered
  obtain rfl := Except.pure_eq_ok.1 eq
  rw [← toInt_of_wordOf (Except.mapError_eq_ok.1 made)] at there
  rw [next]
  exact Setup.goes_load (has 0 _ rfl) ne ne' there holds

/-- A word is put into memory. -/
theorem goes_store {r base : Register} {distance : Int} {address : Nat}
    (orders : l.Orders k (.store r base distance)) (ne : r ≠ .pc) (ne' : base ≠ .pc)
    (there : (v.get base).toInt + distance = address)
    (low : x.config.stackLimit ≤ address) (high : address + 4 ≤ x.config.memorySize) :
    x.Goes 1 (l.before k) v (l.before (k + 1)) (v.store address (v.get r)) := by
  obtain ⟨place, instructions, lowered, next, has⟩ := orders.has assembled
  obtain ⟨offset, made, eq⟩ := Except.bind_eq_ok.1 lowered
  obtain rfl := Except.pure_eq_ok.1 eq
  rw [← toInt_of_wordOf (Except.mapError_eq_ok.1 made)] at there
  rw [next]
  exact Setup.goes_store (has 0 _ rfl) ne ne' there low high

/-- An operation on registers. -/
theorem goes_compute {o : Operation} {d a b : Register} {value : Int32}
    (orders : l.Orders k (.compute o d a b)) (ne : d ≠ .pc) (nonzero : d ≠ .zero) (ne' : a ≠ .pc)
    (ne'' : b ≠ .pc) (computed : o.compute? (v.get a) (v.get b) = some value) :
    x.Goes 1 (l.before k) v (l.before (k + 1)) (v.set d value) := by
  obtain ⟨place, instructions, lowered, next, has⟩ := orders.has assembled
  obtain rfl := Except.ok.inj lowered
  obtain ⟨result, eq, rfl⟩ := Option.map_eq_some_iff.1 computed
  have first := Setup.goes_operation (has 0 _ rfl) ne ne' ne'' eq
  exact goes_turned next has ne nonzero first

/-- An operation on a register and a number. -/
theorem goes_computeWith {o : Operation} {d a : Register} {right : Int} {value : Int32}
    (orders : l.Orders k (.computeWith o d a right)) (ne : d ≠ .pc) (nonzero : d ≠ .zero)
    (ne' : a ≠ .pc) (computed : o.compute? (v.get a) (Int32.ofInt right) = some value) :
    x.Goes 1 (l.before k) v (l.before (k + 1)) (v.set d value) := by
  obtain ⟨place, instructions, lowered, next, has⟩ := orders.has assembled
  obtain ⟨word, made, eq⟩ := Except.bind_eq_ok.1 lowered
  obtain rfl := Except.pure_eq_ok.1 eq
  obtain ⟨-, rfl⟩ := wordOf_eq_ok (Except.mapError_eq_ok.1 made)
  obtain ⟨result, eq, rfl⟩ := Option.map_eq_some_iff.1 computed
  have first := Setup.goes_immediate (has 0 _ rfl) ne ne' eq
  exact goes_turned next has ne nonzero first

/-- A number that an operation is done with has 32 bits. -/
theorem bounds_of_computeWith {o : Operation} {d a : Register} {right : Int}
    (orders : l.Orders k (.computeWith o d a right)) :
    -0x80000000 ≤ right ∧ right < 0x80000000 := by
  obtain ⟨place, instructions, lowered, next, has⟩ := orders.has assembled
  obtain ⟨word, made, -⟩ := Except.bind_eq_ok.1 lowered
  exact (wordOf_eq_ok (Except.mapError_eq_ok.1 made)).1

/-- An operation that has no result. -/
theorem faults_compute {o : Operation} {d a b : Register}
    (orders : l.Orders k (.compute o d a b)) (ne : a ≠ .pc) (ne' : b ≠ .pc)
    (undefined : o.compute? (v.get a) (v.get b) = none) :
    x.Faults (l.before k) v v.output := by
  obtain ⟨place, instructions, lowered, next, has⟩ := orders.has assembled
  obtain rfl := Except.ok.inj lowered
  exact Setup.faults_operation (has 0 _ rfl) ne ne' (Option.map_eq_none_iff.1 undefined)

/-- An operation with a number that has no result. -/
theorem faults_computeWith {o : Operation} {d a : Register} {right : Int}
    (orders : l.Orders k (.computeWith o d a right)) (ne : a ≠ .pc)
    (undefined : o.compute? (v.get a) (Int32.ofInt right) = none) :
    x.Faults (l.before k) v v.output := by
  obtain ⟨place, instructions, lowered, next, has⟩ := orders.has assembled
  obtain ⟨word, made, eq⟩ := Except.bind_eq_ok.1 lowered
  obtain rfl := Except.pure_eq_ok.1 eq
  obtain ⟨-, rfl⟩ := wordOf_eq_ok (Except.mapError_eq_ok.1 made)
  exact Setup.faults_immediate (has 0 _ rfl) ne (Option.map_eq_none_iff.1 undefined)

/-- Whether a register is zero. -/
theorem goes_isZero {d a : Register} (orders : l.Orders k (.isZero d a)) (ne : d ≠ .pc)
    (ne' : a ≠ .pc) :
    x.Goes 1 (l.before k) v (l.before (k + 1)) (v.set d (if v.get a = 0 then 1 else 0)) := by
  obtain ⟨place, instructions, lowered, next, has⟩ := orders.has assembled
  obtain rfl := Except.ok.inj lowered
  rw [next]
  refine Setup.goes_immediate (has 0 _ rfl) ne ne' ?_
  simp [State.compute?]

/-- A jump to a label. -/
theorem goes_jumpTo (orders : l.Orders k (.jumpTo (.label name))) (marks : l.Marks m name) :
    x.Goes 1 (l.before k) v (l.before m) v := by
  obtain ⟨place, instructions, lowered, next, has⟩ := orders.has assembled
  obtain ⟨offset, found, eq⟩ := Except.bind_eq_ok.1 lowered
  obtain rfl := Except.pure_eq_ok.1 eq
  exact Setup.goes_jump (has 0 _ rfl) (l.before_le assembled m) (marks.distance assembled found)

/-- A jump to a label, which is taken unless a register is zero. -/
theorem goes_jumpToIf {condition : Register}
    (orders : l.Orders k (.jumpToIf (.label name) condition)) (marks : l.Marks m name)
    (ne : condition ≠ .pc) :
    x.Goes 1 (l.before k) v (l.before (if v.get condition = 0 then k + 1 else m)) v := by
  obtain ⟨place, instructions, lowered, next, has⟩ := orders.has assembled
  obtain ⟨offset, found, eq⟩ := Except.bind_eq_ok.1 lowered
  obtain rfl := Except.pure_eq_ok.1 eq
  refine .of_sound fun sound => ?_
  split
  · rename_i isZero
    rw [next]
    exact Setup.goes_bne_of_eq (has 0 _ rfl) ne (by decide) (isZero.trans sound.zero.symm)
  · rename_i nonzero
    refine Setup.goes_bne (has 0 _ rfl) ne (by decide) ?_ (l.before_le assembled m)
      (marks.distance assembled found)
    rwa [sound.zero]

/-- A jump to the address in a register. -/
theorem goes_jump {a : Register} (orders : l.Orders k (.jump a)) (ne : a ≠ .pc)
    (there : (v.get a).toInt = x.program.address (l.before m)) :
    x.Goes 1 (l.before k) v (l.before m) v := by
  obtain ⟨place, instructions, lowered, next, has⟩ := orders.has assembled
  obtain rfl := Except.ok.inj lowered
  exact Setup.goes_back (has 0 _ rfl) ne there

/-- The call to the host that prints a number. -/
theorem goes_printi (orders : l.Orders k (.sysOf 3)) :
    x.Goes 1 (l.before k) v (l.before (k + 1)) ((v.set .a0 3).print (v.get .a1)) := by
  obtain ⟨place, instructions, lowered, next, has⟩ := orders.has assembled
  obtain ⟨word, made, eq⟩ := Except.bind_eq_ok.1 lowered
  obtain rfl := Except.pure_eq_ok.1 eq
  obtain ⟨-, rfl⟩ := wordOf_eq_ok (Except.mapError_eq_ok.1 made)
  refine .of_sound fun sound => ?_
  have number : x.Goes 1 (l.before k + 0) v (l.before k + 0 + 1) (v.set .a0 3) := by
    refine Setup.goes_immediate (has 0 _ rfl) (by decide) (by decide) ?_
    rw [State.compute?, sound.zero, Int32.zero_add]
    rfl
  have call := Setup.goes_printi (has 1 _ rfl) (View.get_set_self (v := v) (by decide))
  rw [View.get_set_of_ne (by decide)] at call
  rw [next]
  exact (number.trans call).mono (by omega)

/-- The end of the program, with the exit code in a register. -/
theorem exits {r : Register} (orders : l.Orders k (.exit r)) (ne : r ≠ .pc) {s : State}
    (shows : x.Shows s (l.before k) v) (keeps : ¬ s.Overflows) :
    ∃ m s', s.runFor m = (s', some (.ok (v.get r))) ∧ s'.output = v.output := by
  obtain ⟨place, instructions, lowered, next, has⟩ := orders.has assembled
  obtain rfl := Except.ok.inj lowered
  have copied : x.Goes 1 (l.before k) v (l.before k + 1) (v.set .a0 (v.get r)) := by
    refine Setup.goes_operation (has 0 _ rfl) (by decide) ne (by decide) ?_
    rw [State.compute?, shows.sound.zero, Int32.add_zero]
  obtain ⟨m, t, -, advances, shows'⟩ := copied s shows keeps
  obtain ⟨t', stopped, output⟩ := Setup.stops (has 1 _ rfl) t shows'
  rw [View.get_set_self (by decide)] at stopped
  exact ⟨m + 1, t', by rw [advances.runFor_add, stopped], output⟩

end

end Listing

end Polyglot.Assembly
