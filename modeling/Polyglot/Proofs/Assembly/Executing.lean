import Polyglot.Proofs.Assembly.Effects

/-!
# Instructions have their effects

The words of an instruction are executed one after the other, and what comes out is the effect
of the instruction (`yields_of_ofLine`). There are about ten shapes of words, and one lemma for each
of them. All of them are made of three: one word is executed and ends the instruction, one is executed
and the instruction goes on, or one is executed and fails.

Two words that set a register set it twice. If this is the stack pointer, it may be too low in
between. But then what is set in the end is one or zero, which is too low as well.
-/

namespace Polyglot.Assembly

open Polyglot.Source
open Polyglot.Machine

variable {s t u r : State} {i : Instruction} {count size : Nat} {scratch : Bool} {d a b c : Register}
  {value x y : Int32}

/-! ## Before the words -/

/-- Whether a machine that is in order is before the words of instructions. -/
structure Before (s : State) (is : List Instruction) : Prop where
  /-- The machine is in order. -/
  inOrder : s.InOrder
  /-- The instructions are fetched, as long as the memory is the same. -/
  fetches : ∀ {count : Nat} {i : Instruction} {t : State}, is[count]? = some i →
    t.memory = s.memory → t.pc = s.pc + Int32.ofNat (4 * count) → t.fetch = .ok i
  /-- The address of an instruction is not zero. -/
  further : ∀ {count : Nat}, count < is.length → s.pc + Int32.ofNat (4 * count) ≠ 0

/-- The first instruction is fetched. -/
theorem Before.fetch {is : List Instruction} (before : Before s (i :: is)) : s.fetch = .ok i :=
  @Before.fetches _ _ before 0 _ _ rfl rfl (Int32.add_zero _).symm

theorem before_of_holds {words : List UInt32} {is : List Instruction} {span : Span} {site : Nat}
    (inOrder : s.InOrder) {address : Nat} (pc : s.pc.toInt = address)
    (holds : s.memory.Holds address (words.flatMap wordBytes))
    (encoded : encodeFrom span site is = .ok words) : Before s is := by
  have length : words.length = is.length := encodeFrom_length encoded
  have room : address + 4 * is.length ≤ s.memory.size := by
    rw [← length, ← length_flatMap_wordBytes]
    exact holds.fits
  have small := inOrder.size
  have place {count : Nat} (lt : count < is.length) :
      (s.pc + Int32.ofNat (4 * count)).toInt = (address + 4 * count : Nat) := by
    rw [← Int32.ofInt_eq_ofNat, toInt_add_ofInt (by omega) (by omega), pc, Int.natCast_add]
  refine ⟨inOrder, fun {count i t} there memory here => ?_, fun {count} lt zero => ?_⟩
  · obtain ⟨word, among, decoded⟩ := encodeFrom_at encoded there
    obtain ⟨le, eq⟩ := flatMap_wordBytes_at words among
    have held := eq ▸ holds.drop_take (4 * count) 4 le
    have read : t.memory.readWord t.pc.toInt = .ok word := by
      rw [memory, here, place (List.getElem?_eq_some_iff.1 there).1]
      exact held.readWord
    simp only [State.fetch, read, Instruction.decode_encode decoded, bind, Except.bind, pure,
      Except.pure]
  · have nonzero : address ≠ 0 := by
      rintro rfl
      exact inOrder.going (Int32.toInt_inj.1 pc)
    have := place lt
    rw [zero, Int32.toInt_zero] at this
    omega

/-! ## Executing one word -/

theorem executed_zero : Executed s 0 s := ⟨rfl, (Int32.add_zero _).symm⟩

/-- **The last word is executed**: what the instruction does is what the word does. -/
theorem yields_of_execute (executed : Executed s count u) (less : count < size) (inOrder : u.InOrder)
    (fetched : u.fetch = .ok i) (done : u.ready.execute i = (r, .ok ()))
    (same : SameBut scratch t r.moved) : Yields s size scratch (settle t) := by
  have stepped := State.step_of_fetch inOrder.going inOrder.exhausted fetched done
  unfold SameBut at same
  have config := congrArg State.config same
  change r.config = t.config at config
  have sp : r.registers.get .sp = t.registers.get .sp := by
    have registers := congrArg State.registers same
    change r.registers = if scratch then t.registers.set .t9 (r.registers.get .t9) else t.registers
      at registers
    cases scratch with
    | false => exact congrArg (·.get .sp) registers
    | true =>
      have differ : Register.sp ≠ Register.t9 := by decide
      exact (congrArg (·.get .sp) registers).trans (Registers.get_set_of_ne differ)
  rw [config, sp] at stepped
  unfold settle
  split
  · rename_i low
    rw [if_pos low] at stepped
    exact ⟨count, less, u, _, _, executed, stepped, rfl⟩
  · rename_i above
    rw [if_neg above] at stepped
    exact ⟨count, less, u, _, executed, stepped, same⟩

/-- **A word fails**: the instruction fails. -/
theorem yields_of_fault {fault fault' : Fault} (executed : Executed s count u) (less : count < size)
    (inOrder : u.InOrder) (fetched : u.fetch = .ok i) (failed : u.ready.execute i = (r, .error fault'))
    (kind : fault'.kind = fault.kind) : Yields s size scratch (.error fault) :=
  ⟨count, less, u, r, fault', executed,
    State.step_of_fault inOrder.going inOrder.exhausted fetched failed, kind⟩

/-- The machine that has set a register and is about to go on. -/
def assigned (s : State) (d : Register) (value : Int32) : State :=
  { s.ready with registers := s.registers.set d value }

/-- Whether an instruction of the machine sets a register, or has no value to set it to. -/
def Computes (s : State) (i : Instruction) (d : Register) (value : Option Int32) : Prop :=
  s.ready.execute i
    = value.elim (s.ready, .error (.divisionByZero s.pc)) fun v => (assigned s d v, .ok ())

theorem readRegister_ready (ne : a ≠ .pc) : s.ready.readRegister a = s.registers.get a := by
  rw [State.readRegister, if_neg ne]
  rfl

theorem writeRegister_ready (ne : d ≠ .pc) : s.ready.writeRegister d value = assigned s d value := by
  rw [State.writeRegister, if_neg ne]
  rfl

theorem computes_operation {op : AluOp} (ne : d ≠ .pc) (ne₁ : a ≠ .pc) (ne₂ : b ≠ .pc) :
    Computes s (.operation op d a b) d
      (State.compute? op (s.registers.get a) (s.registers.get b)) := by
  unfold Computes
  simp only [State.execute, readRegister_ready ne₁, readRegister_ready ne₂]
  cases State.compute? op (s.registers.get a) (s.registers.get b) with
  | none => rfl
  | some value => exact congrArg (·, _) (writeRegister_ready ne)

theorem computes_immediate {op : AluOp} {imm : Int32} (ne : d ≠ .pc) (ne₁ : a ≠ .pc) :
    Computes s (.immediate op d a imm) d (State.compute? op (s.registers.get a) imm) := by
  unfold Computes
  simp only [State.execute, readRegister_ready ne₁]
  cases State.compute? op (s.registers.get a) imm with
  | none => rfl
  | some value => exact congrArg (·, _) (writeRegister_ready ne)

/-- A register is set to a number by adding it to zero. -/
theorem computes_add (inOrder : s.InOrder) {imm : Int32} (ne : d ≠ .pc) :
    Computes s (.immediate .add d .zero imm) d (some imm) := by
  have computes : Computes s (.immediate .add d .zero imm) d _ := computes_immediate ne (by decide)
  rwa [inOrder.zero, State.compute?, Int32.zero_add] at computes

/-- A register is set to another one by adding zero to it. -/
theorem computes_copy (inOrder : s.InOrder) (ne : d ≠ .pc) (ne₁ : a ≠ .pc) :
    Computes s (.operation .add d a .zero) d (some (s.registers.get a)) := by
  have computes : Computes s (.operation .add d a .zero) d _ := computes_operation ne ne₁ (by decide)
  rwa [inOrder.zero, State.compute?, Int32.add_zero] at computes

theorem computes_address {offset : Int32} (ne : d ≠ .pc) :
    Computes s (.immediate .add d .pc offset) d (some (s.pc + offset)) :=
  congrArg (·, _) (writeRegister_ready ne)

/-! ## Instructions of one word -/

/-- The word sets a register to what it computes. -/
theorem yields_assign {value : Option Int32} (before : Before s [i]) (computes : Computes s i d value) :
    Yields s 1 false ((Effect.assign d value).perform (s.pc + 4) s) := by
  cases value with
  | none => exact yields_of_fault executed_zero Nat.one_pos before.inOrder before.fetch computes rfl
  | some value => exact yields_of_execute executed_zero Nat.one_pos before.inOrder before.fetch computes rfl

theorem execute_load {offset : Int32} (ne : d ≠ .pc) (ne' : b ≠ .pc) :
    s.ready.execute (.memory .load d b offset)
      = match s.memory.readWord ((s.registers.get b).toInt + offset.toInt) with
        | .error e => (s.ready, .error e)
        | .ok word => (assigned s d word.toInt32, .ok ()) := by
  simp only [State.execute, readRegister_ready ne', writeRegister_ready ne]
  rfl

/-- A word comes from memory. -/
theorem yields_load {offset : Int32} (before : Before s [.memory .load d b offset]) (ne : d ≠ .pc)
    (ne' : b ≠ .pc) : Yields s 1 false
      ((Effect.load d ((s.registers.get b).toInt + offset.toInt)).perform (s.pc + 4) s) := by
  have executes := @execute_load s d b offset ne ne'
  rw [Effect.perform]
  cases read : s.memory.readWord ((s.registers.get b).toInt + offset.toInt) with
  | error e =>
    rw [read] at executes
    exact yields_of_fault executed_zero Nat.one_pos before.inOrder before.fetch executes rfl
  | ok word =>
    rw [read] at executes
    exact yields_of_execute executed_zero Nat.one_pos before.inOrder before.fetch executes rfl

theorem execute_store {offset : Int32} (ne : a ≠ .pc) (ne' : b ≠ .pc) :
    s.ready.execute (.memory .store a b offset)
      = match s.memory.writeWord ((s.registers.get b).toInt + offset.toInt)
          (s.registers.get a).toUInt32 with
        | .error e => (s.ready, .error e)
        | .ok memory => ({ s.ready with memory }, .ok ()) := by
  simp only [State.execute, readRegister_ready ne, readRegister_ready ne', Memory.writeWord]
  have memory : s.ready.memory = s.memory := rfl
  rw [memory]
  cases s.memory.range ((s.registers.get b).toInt + offset.toInt) 4 <;> rfl

/-- A word goes to memory. -/
theorem yields_store {offset : Int32} (before : Before s [.memory .store a b offset]) (ne : a ≠ .pc)
    (ne' : b ≠ .pc) : Yields s 1 false
      ((Effect.store ((s.registers.get b).toInt + offset.toInt) (s.registers.get a)).perform
        (s.pc + 4) s) := by
  have executes := @execute_store s a b offset ne ne'
  rw [Effect.perform]
  cases written : s.memory.writeWord ((s.registers.get b).toInt + offset.toInt)
      (s.registers.get a).toUInt32 with
  | error e =>
    rw [written] at executes
    exact yields_of_fault executed_zero Nat.one_pos before.inOrder before.fetch executes rfl
  | ok memory =>
    rw [written] at executes
    exact yields_of_execute executed_zero Nat.one_pos before.inOrder before.fetch executes rfl

/-- The program goes on at the address in a register. -/
theorem execute_jump (inOrder : s.InOrder) (ne : a ≠ .pc) :
    s.ready.execute (.operation .add .pc a .zero)
      = ({ s.ready with nextPc := s.registers.get a }, .ok ()) := by
  have zero : Register.zero ≠ .pc := by decide
  simp only [State.execute, readRegister_ready ne, readRegister_ready zero, inOrder.zero,
    State.compute?, Int32.add_zero]
  rfl

theorem yields_jump (before : Before s [.operation .add .pc a .zero]) (ne : a ≠ .pc) {next : Int32} :
    Yields s 1 false ((Effect.goTo (s.registers.get a)).perform next s) :=
  yields_of_execute executed_zero Nat.one_pos before.inOrder before.fetch
    (execute_jump before.inOrder ne) rfl

/-- The program goes on at an offset from here. -/
theorem yields_jumpTo {offset next : Int32} (before : Before s [.jump offset]) :
    Yields s 1 false ((Effect.goTo (s.pc + offset)).perform next s) :=
  yields_of_execute executed_zero Nat.one_pos before.inOrder before.fetch rfl rfl

/-- The program goes on at an offset from here unless a register is zero. -/
theorem yields_jumpToIf {offset : Int32} (before : Before s [.branch .bne c .zero offset])
    (ne : c ≠ .pc) : Yields s 1 false ((Effect.goTo
      (if s.registers.get c = 0 then s.pc + 4 else s.pc + offset)).perform (s.pc + 4) s) := by
  have zero : Register.zero ≠ .pc := by decide
  have executes : s.ready.execute (.branch .bne c .zero offset)
      = ({ s.ready with
          nextPc := if s.registers.get c = 0 then s.pc + 4 else s.pc + offset }, .ok ()) := by
    simp only [State.execute, readRegister_ready ne, readRegister_ready zero, before.inOrder.zero]
    by_cases isZero : s.registers.get c = 0
    · simp [isZero, State.ready]
    · simp [isZero, State.ready]
  exact yields_of_execute executed_zero Nat.one_pos before.inOrder before.fetch executes rfl

/-! ## Instructions of two words -/

/-- **The first word is executed**, and the machine is before the second one unless the stack pointer is
too low. -/
theorem executed_one {j : Instruction} (before : Before s [i, j])
    (done : s.ready.execute i = (r, .ok ())) (next : r.nextPc = s.pc + 4)
    (memory : r.memory = s.memory)
    (above : (r.config.stackLimit : Int) ≤ (r.registers.get .sp).toInt) :
    Executed s 1 r.moved ∧ r.moved.InOrder ∧ r.moved.fetch = .ok j := by
  have further : r.nextPc ≠ 0 := next ▸ @Before.further _ _ before 1 Nat.one_lt_two
  have stepped : s.step = (r.moved, .ok true) := by
    rw [State.step_of_fetch before.inOrder.going before.inOrder.exhausted before.fetch done,
      if_neg (Int.not_lt.2 above), bne_iff_ne.2 further]
  exact ⟨⟨⟨_, stepped, rfl⟩, next⟩, before.inOrder.step stepped,
    @Before.fetches _ _ before 1 _ _ rfl memory next⟩

/-- The first word sets a register other than the stack pointer. -/
theorem executed_set {j : Instruction} (before : Before s [i, j]) (ne : d ≠ .sp)
    (computes : Computes s i d (some value)) : Executed s 1 (assigned s d value).moved
      ∧ (assigned s d value).moved.InOrder ∧ (assigned s d value).moved.fetch = .ok j := by
  refine executed_one before computes rfl rfl ?_
  have kept : (s.registers.set d value).get .sp = s.registers.get .sp := Registers.get_set_of_ne ne.symm
  exact kept.symm ▸ before.inOrder.stack

/-- A result that is turned round. -/
def turned (value : Int32) : Int32 := truth (value = 0)

theorem compute?_eq_zero (value : Int32) : State.compute? .eq value 0 = some (turned value) := by
  simp [State.compute?, turned, truth]

/-- What is set last is what counts, and register zero is never set. -/
theorem set_turned (rs : Registers) (d : Register) (value : Int32) :
    (rs.set d value).set d (turned ((rs.set d value).get d)) = rs.set d (turned value) := by
  rw [Registers.set_set]
  by_cases zero : d = .zero
  · subst zero
    rfl
  · rw [Registers.get_set_self zero]

theorem turned_lt {s : State} (inOrder : s.InOrder) (value : Int32) :
    (turned value).toInt < s.config.stackLimit := by
  have room : 4 ≤ s.config.stackLimit := inOrder.room
  have small : (turned value).toInt ≤ 1 := by
    rw [turned, truth]
    split <;> decide
  omega

theorem add_four_four (pc : Int32) : pc + 4 + 4 = pc + 8 := Int32.add_assoc ..

/-- The second word turns the result of the first one round. -/
theorem yields_turned {value : Option Int32} (before : Before s [i, .immediate .eq d d 0])
    (ne : d ≠ .pc) (computes : Computes s i d value) :
    Yields s 2 false ((Effect.assign d (value.map turned)).perform (s.pc + 8) s) := by
  cases value with
  | none => exact yields_of_fault executed_zero Nat.two_pos before.inOrder before.fetch computes rfl
  | some value =>
    by_cases low : ((s.registers.set d value).get .sp).toInt < s.config.stackLimit
    · -- only the stack pointer can have become too low
      obtain rfl : d = .sp := Classical.byContradiction fun other => by
        rw [Registers.get_set_of_ne (Ne.symm other)] at low
        exact Int.not_lt.2 before.inOrder.stack low
      have stepped : s.step = ((assigned s .sp value).moved, .error (.stackOverflow
          ((s.registers.set .sp value).get .sp) s.config.stackLimit)) := by
        rw [State.step_of_fetch before.inOrder.going before.inOrder.exhausted before.fetch computes]
        exact congrArg _ (if_pos low)
      have last : ((s.registers.set .sp (turned value)).get .sp).toInt < s.config.stackLimit := by
        rw [Registers.get_set_self (by decide)]
        exact turned_lt before.inOrder value
      rw [Option.map_some, Effect.perform, settle, if_pos last]
      exact ⟨0, Nat.two_pos, s, _, _, executed_zero, stepped, rfl⟩
    · obtain ⟨executed, inOrder, fetched⟩ := executed_one before computes rfl rfl (Int.not_lt.1 low)
      have second : Computes (assigned s d value).moved (.immediate .eq d d 0) d
          (some (turned ((s.registers.set d value).get d))) :=
        compute?_eq_zero _ ▸ computes_immediate ne ne
      refine yields_of_execute executed Nat.one_lt_two inOrder fetched second ?_
      have registers := set_turned s.registers d value
      simp only [SameBut, State.moved, State.ready, assigned, add_four_four, registers,
        Bool.false_eq_true, ↓reduceIte]

/-- A number is stored, by way of the last temporary. -/
theorem yields_storeInt {offset : Int32} (before : Before s
      [.immediate .add .t9 .zero value, .memory .store .t9 b offset]) (ne : b ≠ .pc) (ne' : b ≠ .t9) :
    Yields s 2 true
      ((Effect.store ((s.registers.get b).toInt + offset.toInt) value).perform (s.pc + 8) s) := by
  have scratch : Register.t9 ≠ .pc ∧ Register.t9 ≠ .sp ∧ Register.t9 ≠ .zero := by decide
  obtain ⟨executed, inOrder, fetched⟩ :=
    executed_set before scratch.2.1 (computes_add before.inOrder scratch.1)
  have executes : (assigned s .t9 value).moved.ready.execute (.memory .store .t9 b offset) = _ :=
    execute_store scratch.1 ne
  have base : (s.registers.set .t9 value).get b = s.registers.get b := Registers.get_set_of_ne ne'
  have word : (s.registers.set .t9 value).get .t9 = value := Registers.get_set_self scratch.2.2
  simp only [State.moved, State.ready, assigned, base, word] at executes
  rw [Effect.perform]
  cases written : s.memory.writeWord ((s.registers.get b).toInt + offset.toInt) value.toUInt32 with
  | error e =>
    rw [written] at executes
    exact yields_of_fault executed Nat.one_lt_two inOrder fetched executes rfl
  | ok memory =>
    rw [written] at executes
    refine yields_of_execute executed Nat.one_lt_two inOrder fetched executes ?_
    simp only [SameBut, State.moved, add_four_four, word, ↓reduceIte]

/-- The program goes on at the address in a register unless the other register is zero. -/
theorem yields_jumpIf (before : Before s [.branch .beq c .zero 8, .operation .add .pc a .zero])
    (ne : a ≠ .pc) (ne' : c ≠ .pc) : Yields s 2 false ((Effect.goTo
      (if s.registers.get c = 0 then s.pc + 8 else s.registers.get a)).perform (s.pc + 8) s) := by
  have zero : Register.zero ≠ .pc := by decide
  have executes : s.ready.execute (.branch .beq c .zero 8)
      = ({ s.ready with nextPc := if s.registers.get c = 0 then s.pc + 8 else s.pc + 4 }, .ok ()) := by
    simp only [State.execute, readRegister_ready ne', readRegister_ready zero, before.inOrder.zero]
    by_cases isZero : s.registers.get c = 0
    · simp [isZero, State.ready]
    · simp [isZero, State.ready]
  by_cases isZero : s.registers.get c = 0
  · rw [if_pos isZero] at executes ⊢
    exact yields_of_execute executed_zero Nat.two_pos before.inOrder before.fetch executes rfl
  · rw [if_neg isZero] at executes ⊢
    obtain ⟨executed, inOrder, fetched⟩ := executed_one before executes rfl rfl before.inOrder.stack
    exact yields_of_execute executed Nat.one_lt_two inOrder fetched (execute_jump inOrder ne) rfl

/-- The host is called. -/
theorem yields_call (before : Before s [i, .env .call]) (computes : Computes s i .a0 (some value)) :
    Yields s 2 false ((Effect.call value).perform (s.pc + 8) s) := by
  obtain ⟨executed, inOrder, fetched⟩ := executed_set before (by decide) computes
  have relocated : (assigned s .a0 value).moved.ready
      = ({ s with registers := s.registers.set .a0 value } : State).relocated (s.pc + 4)
        (s.pc + 4 + 4) (s.steps + 1) := rfl
  obtain ⟨machine, answer⟩ := State.hostCall_relocated
    { s with registers := s.registers.set .a0 value } (s.pc + 4) (s.pc + 4 + 4) (s.steps + 1)
  rw [← relocated] at machine answer
  rcases calls : ({ s with registers := s.registers.set .a0 value } : State).hostCall with
    ⟨t, fault | ⟨⟨⟩⟩⟩ <;> rcases calls' : (assigned s .a0 value).moved.ready.hostCall with ⟨r, fault' | ⟨⟨⟩⟩⟩ <;>
    rw [calls, calls'] at machine answer <;> rw [Effect.perform, calls]
  · have kind : fault'.kind = fault.kind := Except.error.inj answer
    exact yields_of_fault executed Nat.one_lt_two inOrder fetched calls' kind
  · cases answer
  · cases answer
  · refine yields_of_execute executed Nat.one_lt_two inOrder fetched calls' ?_
    obtain rfl : r = _ := machine
    rw [SameBut, add_four_four]
    rfl

/-- The program ends. -/
theorem yields_stop {next : Int32} (before : Before s [i, .operation .add .pc .zero .zero])
    (computes : Computes s i .a0 (some value)) :
    Yields s 2 false ((Effect.stop value).perform next s) := by
  obtain ⟨executed, inOrder, fetched⟩ := executed_set before (by decide) computes
  refine yields_of_execute executed Nat.one_lt_two inOrder fetched
    (execute_jump inOrder (by decide)) ?_
  rw [inOrder.zero]
  rfl

/-! ## All instructions -/

/-- The result of an operation, if it has one. -/
def Operation.result (o : Operation) (a b : Int32) : Option Int32 :=
  if o.negated then (State.compute? o.op a b).map turned else State.compute? o.op a b

/-- **What the mnemonics compute** is what their operations do. -/
theorem results_eq : results = operations.map fun p => (p.1, p.2.result) := by
  simp [results, operations, Operation.result, State.compute?, truth, turned, funext_iff]

theorem lookup_results (mnemonic : String) :
    results.lookup mnemonic = (operation? mnemonic).map Operation.result := by
  rw [results_eq, operation?]
  induction operations with
  | nil => rfl
  | cons p ps ih =>
    rw [List.map_cons, List.lookup_cons, List.lookup_cons, ih]
    split <;> rfl

variable {p : Placement} {mnemonic : String} {operands : List Operand} {span : Span} {site : Nat}
  {command : Command} {is : List Instruction} {next : Int32}

/-- The address of a label, from the distance to it. -/
theorem label?_of_labelOffset {name : String} {distance : Int} {word : Int32}
    (placed : s.pc = p.start + Int32.ofNat (4 * site))
    (found : p.scope.labelOffset name site span = .ok distance) (made : wordOf distance = .ok word) :
    p.label? name = some (s.pc + word) := by
  obtain ⟨-, rfl⟩ := wordOf_eq_ok made
  unfold Scope.labelOffset at found
  split at found
  case h_2 => cases found
  case h_1 target there =>
    obtain rfl := Except.ok.inj found
    rw [Placement.label?, there, placed, Option.map_some, Int32.add_assoc]
    simp only [← Int32.ofInt_eq_ofNat, ← Int32.ofInt_add]
    congr 3
    omega

/-- The address of a text, from the distance to it. -/
theorem text?_of_constantOffset {index : Nat} {distance : Int} {word : Int32}
    (placed : s.pc = p.start + Int32.ofNat (4 * site))
    (found : p.scope.constantOffset index site span = .ok distance)
    (made : wordOf distance = .ok word) : p.text? index = some (s.pc + word) := by
  obtain ⟨-, rfl⟩ := wordOf_eq_ok made
  unfold Scope.constantOffset at found
  split at found
  case h_2 => cases found
  case h_1 start there =>
    obtain rfl := Except.ok.inj found
    rw [Placement.text?, there, placed, Option.map_some, Int32.sub_eq_add_neg]
    simp only [Int32.add_assoc, ← Int32.ofInt_eq_ofNat, ← Int32.ofInt_neg, ← Int32.ofInt_add]
    congr 3
    omega

/-- The address that an operand refers to, from the offset that was made for it. -/
theorem target?_of_lower {operand : Operand} {target : Target} {word : Int32}
    (placed : s.pc = p.start + Int32.ofNat (4 * site)) (is : Command.target? operand = some target)
    (made : (match target with
      | .label name => do (wordOf (← p.scope.labelOffset name site span)).mapError (.encoding site span)
      | .offset bytes => (wordOf bytes).mapError (.encoding site span)) = Except.ok word) :
    p.target? s.pc operand = some (s.pc + word) := by
  cases operand with
  | register | constant => cases is
  | label name =>
    obtain rfl := Option.some.inj is
    obtain ⟨distance, found, made⟩ := Except.bind_eq_ok.1 made
    exact label?_of_labelOffset placed found (Except.mapError_eq_ok.1 made)
  | int bytes =>
    obtain rfl := Option.some.inj is
    obtain ⟨-, rfl⟩ := wordOf_eq_ok (Except.mapError_eq_ok.1 made)
    rfl

/-- What is known of the words of an operation, from the first one. -/
theorem yields_operation {o : Operation} (ne : d ≠ .pc)
    (before : Before s (i :: if o.negated then [.immediate .eq d d 0] else []))
    (computes : Computes s i d (State.compute? o.op x y)) :
    Yields s (i :: if o.negated then [Instruction.immediate .eq d d 0] else []).length false
      ((Effect.assign d (o.result x y)).perform (s.pc + Int32.ofNat
        (4 * (i :: if o.negated then [Instruction.immediate .eq d d 0] else []).length)) s) := by
  unfold Operation.result
  cases negated : o.negated with
  | false =>
    rw [negated] at before
    exact yields_assign before computes
  | true =>
    rw [negated] at before
    exact yields_turned before ne computes

/-- The arithmetic instructions have their effects. -/
theorem yields_of_ofArithmetic? (found : Command.ofArithmetic? mnemonic operands = some command)
    (ne : ∀ r, .register r ∈ operands → r ≠ .pc)
    (lowered : p.scope.lower site span command = .ok is) (before : Before s is) :
    ∃ effect, meaning? p (s.pc + Int32.ofNat (4 * is.length)) s mnemonic operands = some effect
      ∧ Yields s is.length (mnemonic == "storev")
        (effect.perform (s.pc + Int32.ofNat (4 * is.length)) s) := by
  unfold Command.ofArithmetic? at found
  split at found
  case h_1 d a b =>
    obtain ⟨o, known, rfl⟩ := Option.map_eq_some_iff.1 found
    obtain rfl := Except.ok.inj lowered
    have meant (next : Int32) :
        meaning? p next s mnemonic [.register d, .register a, .register b]
          = some (.assign d (o.result (s.registers.get a) (s.registers.get b))) := by
      simp only [meaning?, lookup_results, known]
      rfl
    have other : (mnemonic == "storev") = false := by
      refine beq_eq_false_iff_ne.2 ?_
      rintro rfl
      cases known
    rw [other]
    exact ⟨_, meant _, yields_operation (ne d (by simp)) before
      (computes_operation (ne d (by simp)) (ne a (by simp)) (ne b (by simp)))⟩
  case h_2 d a value =>
    obtain ⟨o, known, rfl⟩ := Option.map_eq_some_iff.1 found
    obtain ⟨word, made, eq⟩ := Except.bind_eq_ok.1 lowered
    obtain rfl := Except.pure_eq_ok.1 eq
    obtain ⟨-, rfl⟩ := wordOf_eq_ok (Except.mapError_eq_ok.1 made)
    have meant (next : Int32) :
        meaning? p next s mnemonic [.register d, .register a, .int value]
          = some (.assign d (o.result (s.registers.get a) (Int32.ofInt value))) := by
      -- the other instructions that take a number last are no immediate forms
      have notLoad : mnemonic ≠ "load" := by
        rintro rfl
        cases known
      have notStore : mnemonic ≠ "store" := by
        rintro rfl
        cases known
      obtain ⟨form, is, known⟩ := Option.bind_eq_some_iff.1 known
      simp only [meaning?, is, Option.bind_some, lookup_results, known]
      rfl
    have other : (mnemonic == "storev") = false := by
      refine beq_eq_false_iff_ne.2 ?_
      rintro rfl
      cases known
    rw [other]
    exact ⟨_, meant _, yields_operation (ne d (by simp)) before
      (computes_immediate (ne d (by simp)) (ne a (by simp)))⟩
  case h_3 => cases found

/-- **A checked instruction has its effect**, if a machine that is in order is before its words. -/
theorem yields_of_of? (found : Command.of? mnemonic operands = some command)
    (plain : ∀ r, .register r ∈ operands → r ≠ .t9 ∧ r ≠ .pc)
    (placed : s.pc = p.start + Int32.ofNat (4 * site))
    (lowered : p.scope.lower site span command = .ok is) (before : Before s is) :
    ∃ effect, meaning? p (s.pc + Int32.ofNat (4 * is.length)) s mnemonic operands = some effect
      ∧ Yields s is.length (mnemonic == "storev")
        (effect.perform (s.pc + Int32.ofNat (4 * is.length)) s) := by
  unfold Command.of? at found
  have ne {r : Register} (mem : .register r ∈ operands) : r ≠ .pc := (plain r mem).2
  split at found
  -- `not` and `set`, which find their result in one instruction
  case h_1 =>
    obtain rfl := Option.some.inj found
    obtain rfl := Except.ok.inj lowered
    exact ⟨_, rfl, yields_assign before
      (compute?_eq_zero _ ▸ computes_immediate (ne (by simp)) (ne (by simp)))⟩
  case h_2 =>
    obtain rfl := Option.some.inj found
    obtain rfl := Except.ok.inj lowered
    exact ⟨_, rfl, yields_assign before (computes_copy before.inOrder (ne (by simp)) (ne (by simp)))⟩
  -- `setv`: a number stands in the instruction, and so does the distance to an address
  case h_3 d value =>
    cases value with
    | register => cases found
    | int value =>
      obtain rfl := Option.some.inj found
      obtain ⟨word, made, eq⟩ := Except.bind_eq_ok.1 lowered
      obtain rfl := Except.pure_eq_ok.1 eq
      obtain ⟨-, rfl⟩ := wordOf_eq_ok (Except.mapError_eq_ok.1 made)
      exact ⟨_, rfl, yields_assign before (computes_add before.inOrder (ne (by simp)))⟩
    | label name =>
      obtain rfl := Option.some.inj found
      obtain ⟨distance, found, lowered⟩ := Except.bind_eq_ok.1 lowered
      obtain ⟨word, made, eq⟩ := Except.bind_eq_ok.1 lowered
      obtain rfl := Except.pure_eq_ok.1 eq
      have address := label?_of_labelOffset placed found (Except.mapError_eq_ok.1 made)
      exact ⟨_, congrArg (Option.map _) address, yields_assign before (computes_address (ne (by simp)))⟩
    | constant index =>
      obtain rfl := Option.some.inj found
      obtain ⟨distance, found, lowered⟩ := Except.bind_eq_ok.1 lowered
      obtain ⟨word, made, eq⟩ := Except.bind_eq_ok.1 lowered
      obtain rfl := Except.pure_eq_ok.1 eq
      have address := text?_of_constantOffset placed found (Except.mapError_eq_ok.1 made)
      exact ⟨_, congrArg (Option.map _) address, yields_assign before (computes_address (ne (by simp)))⟩
  -- `load`, `store` and `storev`, with the offset of a word
  case h_4 =>
    obtain rfl := Option.some.inj found
    obtain ⟨word, made, eq⟩ := Except.bind_eq_ok.1 lowered
    obtain rfl := Except.pure_eq_ok.1 eq
    have yields := yields_load before (ne (by simp)) (ne (by simp))
    rw [toInt_of_wordOf (Except.mapError_eq_ok.1 made)] at yields
    exact ⟨_, rfl, yields⟩
  case h_5 =>
    obtain rfl := Option.some.inj found
    obtain ⟨word, made, eq⟩ := Except.bind_eq_ok.1 lowered
    obtain rfl := Except.pure_eq_ok.1 eq
    have yields := yields_store before (ne (by simp)) (ne (by simp))
    rw [toInt_of_wordOf (Except.mapError_eq_ok.1 made)] at yields
    exact ⟨_, rfl, yields⟩
  case h_6 =>
    obtain rfl := Option.some.inj found
    obtain ⟨value, made, lowered⟩ := Except.bind_eq_ok.1 lowered
    obtain ⟨word, made', eq⟩ := Except.bind_eq_ok.1 lowered
    obtain rfl := Except.pure_eq_ok.1 eq
    obtain ⟨-, rfl⟩ := wordOf_eq_ok (Except.mapError_eq_ok.1 made)
    have yields := yields_storeInt before (ne (by simp)) (plain _ (by simp)).1
    rw [toInt_of_wordOf (Except.mapError_eq_ok.1 made')] at yields
    exact ⟨_, rfl, yields⟩
  -- the jumps: to an address, or by a distance that was found when the program was put together
  case h_7 =>
    obtain rfl := Option.some.inj found
    obtain rfl := Except.ok.inj lowered
    exact ⟨_, rfl, yields_jump before (ne (by simp))⟩
  case h_8 place =>
    obtain ⟨target, is, rfl⟩ := Option.map_eq_some_iff.1 found
    obtain ⟨offset, made, eq⟩ := Except.bind_eq_ok.1 lowered
    obtain rfl := Except.pure_eq_ok.1 eq
    have address := target?_of_lower placed is made
    exact ⟨_, congrArg (Option.map _) address, yields_jumpTo before⟩
  case h_9 =>
    obtain rfl := Option.some.inj found
    obtain rfl := Except.ok.inj lowered
    exact ⟨_, rfl, yields_jumpIf before (ne (by simp)) (ne (by simp))⟩
  case h_10 place c =>
    obtain ⟨target, is, rfl⟩ := Option.map_eq_some_iff.1 found
    obtain ⟨offset, made, eq⟩ := Except.bind_eq_ok.1 lowered
    obtain rfl := Except.pure_eq_ok.1 eq
    have address := target?_of_lower placed is made
    exact ⟨_, congrArg (Option.map _) address, yields_jumpToIf before (ne (by simp))⟩
  -- `sys`, `sysv`, `exit` and `exitv`: a number is put where the host looks for it, then it is called
  case h_11 =>
    obtain rfl := Option.some.inj found
    obtain rfl := Except.ok.inj lowered
    exact ⟨_, rfl, yields_call before (computes_copy before.inOrder (by decide) (ne (by simp)))⟩
  case h_12 =>
    obtain rfl := Option.some.inj found
    obtain ⟨word, made, eq⟩ := Except.bind_eq_ok.1 lowered
    obtain rfl := Except.pure_eq_ok.1 eq
    obtain ⟨-, rfl⟩ := wordOf_eq_ok (Except.mapError_eq_ok.1 made)
    exact ⟨_, rfl, yields_call before (computes_add before.inOrder (by decide))⟩
  case h_13 =>
    obtain rfl := Option.some.inj found
    obtain rfl := Except.ok.inj lowered
    exact ⟨_, rfl, yields_stop before (computes_copy before.inOrder (by decide) (ne (by simp)))⟩
  case h_14 =>
    obtain rfl := Option.some.inj found
    obtain ⟨word, made, eq⟩ := Except.bind_eq_ok.1 lowered
    obtain rfl := Except.pure_eq_ok.1 eq
    obtain ⟨-, rfl⟩ := wordOf_eq_ok (Except.mapError_eq_ok.1 made)
    exact ⟨_, rfl, yields_stop before (computes_add before.inOrder (by decide))⟩
  case h_15 => exact yields_of_ofArithmetic? found (fun r mem => ne mem) lowered before

section

variable {config : Config} {program : Program} {input : List UInt8} {start : State} {n address : Nat}
  {words : List UInt32}

/-- **An instruction means what it says.** Its operands have passed the check, it was lowered and encoded,
and neither the program counter nor the last temporary is named in it. A machine without a limit of
steps has come to its words. Then executing them yields what its effect does, or a fault of the
same kind, and leaves everything else as it was: only the steps were counted, and a number that was
stored is in the last temporary. The labels and texts stand where they should if this is where the
instruction with its number stands. -/
theorem yields_effect (checked : Command.ofLine mnemonic operands span = .ok command)
    (plain : ∀ r, .register r ∈ operands → r ≠ .t9 ∧ r ≠ .pc)
    (lowered : p.scope.lower site span command = .ok is)
    (encoded : encodeFrom span site is = .ok words)
    (loaded : State.load config program input = .ok start) (unlimited : config.maxSteps = none)
    (reached : start.Advances n s) (pc : s.pc.toInt = address)
    (holds : s.memory.Holds address (words.flatMap wordBytes))
    (placed : s.pc = p.start + Int32.ofNat (4 * site)) :
    ∃ effect, meaning? p (s.pc + Int32.ofNat (4 * words.length)) s mnemonic operands = some effect
      ∧ Yields s words.length (mnemonic == "storev")
        (effect.perform (s.pc + Int32.ofNat (4 * words.length)) s) := by
  have inOrder := (State.inOrder_of_load loaded unlimited).advances reached
  have before := before_of_holds inOrder pc holds encoded
  obtain ⟨⟨⟩, -, made⟩ := Except.bind_eq_ok.1 checked
  have found : Command.of? mnemonic operands = some command := by
    cases found : Command.of? mnemonic operands with
    | none => rw [found] at made; cases made
    | some c =>
      rw [found] at made
      exact congrArg some (Except.pure_eq_ok.1 made)
  rw [encodeFrom_length encoded]
  exact yields_of_of? found plain placed lowered before

/-- The words that compare the stack pointer with zero. -/
def compareWords : List UInt32 := [0xe8208000, 0xa0840000]

theorem yields_effect_neq : ∃ start effect, State.load {} ⟨[], compareWords⟩ [] = .ok start
    ∧ meaning? ⟨⟨[], []⟩, 4⟩ 12 start "neq" [.register .t0, .register .sp, .register .zero]
      = some effect
    ∧ Yields start 2 false (effect.perform 12 start) := by
  obtain ⟨start, loaded⟩ : ∃ start, State.load {} ⟨[], compareWords⟩ [] = .ok start := ⟨_, rfl⟩
  have pc : start.pc = 4 := by
    obtain ⟨-, -, rfl⟩ := State.load_eq_ok loaded
    rfl
  have plain : ∀ r, .register r ∈ [Operand.register .t0, .register .sp, .register .zero] →
      r ≠ .t9 ∧ r ≠ .pc := by
    simp only [List.mem_cons, Operand.register.injEq, List.not_mem_nil, or_false]
    rintro r (rfl | rfl | rfl) <;> decide
  have checked : Command.ofLine "neq" [.register .t0, .register .sp, .register .zero] .start
      = .ok (.compute ⟨.eq, true⟩ .t0 .sp .zero) := rfl
  have encoded : encodeFrom .start 0 [.operation .eq .t0 .sp .zero, .immediate .eq .t0 .t0 0]
      = .ok compareWords := rfl
  have reached : start.Advances 0 start := rfl
  have yields := yields_effect (p := ⟨⟨[], []⟩, 4⟩) (s := start) checked plain rfl encoded loaded rfl reached
    (by rw [pc]; rfl) (State.carries_of_load loaded) (by rw [pc]; rfl)
  rw [pc] at yields
  obtain ⟨effect, meant, yields⟩ := yields
  exact ⟨start, effect, loaded, meant, yields⟩

end

end Polyglot.Assembly
