import Polyglot.Proofs.Machine.Execution

/-!
# What a program sees of the machine

A program sees the registers, the memory and what it has printed (`View`), and it
knows which of its instructions comes next. This module tells what single
instructions do in these terms, for a program that was loaded and a machine that has
no step limit (`Setup`).

Three things can be said of a place in a program together with a view: that the
machine goes on from there to another place and another view (`Setup.Goes`), that it
comes to a division by zero (`Setup.Faults`), and that it is still going after a
number of steps (`Setup.Lasts`). All of them are about machines whose stack pointer
never goes below the stack limit. So none of the programs that are spoken of here has
to show that its stack is deep enough, but each may use that it is: whatever is
written at the stack pointer or above it leaves the image of the program alone.
-/

namespace Polyglot.Machine

/-- What a program can see of the machine. -/
structure View where
  /-- The registers, except for the program counter. -/
  registers : Registers
  /-- The memory. -/
  memory : Memory
  /-- The output so far. -/
  output : Array UInt8

namespace View

/-- The word of a register. -/
def get (v : View) (r : Register) : Int32 := v.registers.get r

/-- The view after a register was written. -/
def set (v : View) (r : Register) (value : Int32) : View :=
  { v with registers := v.registers.set r value }

/-- The view after a word was written to memory. -/
def store (v : View) (address : Nat) (value : Int32) : View :=
  { v with memory := v.memory.setBytes address (wordBytes value.toUInt32) }

/-- The view after a number was printed. -/
def print (v : View) (value : Int32) : View :=
  { v with output := State.printWord v.output value }

variable {v : View} {r r' : Register} {a : Nat} {value : Int32}

@[simp] theorem get_set_self (h : r ≠ .zero) : (v.set r value).get r = value :=
  Registers.get_set_self h

@[simp] theorem get_set_of_ne (h : r' ≠ r) : (v.set r value).get r' = v.get r' :=
  Registers.get_set_of_ne h

@[simp] theorem get_zero_set : (v.set r value).get .zero = v.get .zero := by
  by_cases h : r = .zero
  · rw [h, set, Registers.set, if_pos rfl]
  · exact get_set_of_ne (Ne.symm h)

/-- Of two words that are written to a register the last one counts. -/
@[simp] theorem set_set {value' : Int32} : (v.set r value).set r value' = v.set r value' := by
  unfold set Registers.set
  split <;> simp

@[simp] theorem memory_set : (v.set r value).memory = v.memory := rfl

@[simp] theorem output_set : (v.set r value).output = v.output := rfl

@[simp] theorem get_store : (v.store a value).get r = v.get r := by
  simp only [View.get, store]

@[simp] theorem registers_store : (v.store a value).registers = v.registers := by
  simp only [store]

@[simp] theorem output_store : (v.store a value).output = v.output := by simp only [store]

@[simp] theorem size_store : (v.store a value).memory.size = v.memory.size := by
  simp only [store, Memory.size_setBytes]

@[simp] theorem get_print : (v.print value).get r = v.get r := by
  simp only [View.get, print]

@[simp] theorem memory_print : (v.print value).memory = v.memory := by simp only [print]

end View

/-- A program and the parameters of a machine that it can be loaded in, and that has no
step limit. -/
structure Setup where
  /-- The program. -/
  program : Program
  /-- The parameters. -/
  config : Config
  /-- There is room below the stack. -/
  room : loadAddress + program.imageSize ≤ config.stackLimit
  /-- Addresses have at most 31 bits. -/
  size : config.memorySize < 0x80000000
  /-- There is no step limit. -/
  unlimited : config.maxSteps = none

namespace Setup

variable (x : Setup)

/-- What is always true of what a program sees. -/
structure Sound (v : View) : Prop where
  /-- The program is where it was loaded. -/
  carries : v.memory.Holds loadAddress x.program.image
  /-- The memory has the size it should have. -/
  size : v.memory.size = x.config.memorySize
  /-- Register zero is zero. -/
  zero : v.get .zero = 0
  /-- The stack pointer is not below the stack limit. -/
  limit : (x.config.stackLimit : Int) ≤ (v.get .sp).toInt

/-- Whether a machine is before an instruction and shows a view. -/
structure Shows (s : State) (n : Nat) (v : View) : Prop where
  /-- It has the parameters. -/
  config : s.config = x.config
  /-- The program counter is the address of the instruction. -/
  pc : s.pc.toInt = x.program.address n
  /-- The registers are seen. -/
  registers : s.registers = v.registers
  /-- The memory is seen. -/
  memory : s.memory = v.memory
  /-- The output is seen. -/
  output : s.output = v.output
  /-- What is seen is sound. -/
  sound : x.Sound v

/-- Whether the machine goes from an instruction and a view to others, in at least `j`
steps. -/
def Goes (j n : Nat) (v : View) (n' : Nat) (v' : View) : Prop :=
  ∀ s, x.Shows s n v → ¬ s.Overflows →
    ∃ m s', j ≤ m ∧ s.Advances m s' ∧ x.Shows s' n' v'

/-- Whether the machine comes to a division by zero, with this output. -/
def Faults (n : Nat) (v : View) (output : Array UInt8) : Prop :=
  ∀ s, x.Shows s n v → ¬ s.Overflows →
    ∃ m s' s'' a, s.Advances m s' ∧ s'.step = (s'', .error (.divisionByZero a))
      ∧ s''.output = output

/-- Whether the machine goes on for at least `j` steps, and has this output at some time
after them. -/
def Lasts (j n : Nat) (v : View) (output : Array UInt8) : Prop :=
  ∀ s, x.Shows s n v → ¬ s.Overflows →
    ∃ m s', j ≤ m ∧ s.Advances m s' ∧ s'.output = output

variable {x} {n n' n'' j j' : Nat} {v v' v'' : View} {output : Array UInt8}

namespace Goes

theorem refl : x.Goes 0 n v n v := fun s shows _ => ⟨0, s, Nat.le_refl _, rfl, shows⟩

theorem trans (first : x.Goes j n v n' v') (second : x.Goes j' n' v' n'' v'') :
    x.Goes (j + j') n v n'' v'' := by
  intro s shows keeps
  obtain ⟨m, t, le, advances, shows'⟩ := first s shows keeps
  obtain ⟨m', t', le', advances', shows''⟩ :=
    second t shows' fun overflows => keeps (advances.overflows overflows)
  exact ⟨m + m', t', Nat.add_le_add le le', advances.trans advances', shows''⟩

theorem mono (h : x.Goes j n v n' v') (le : j' ≤ j) : x.Goes j' n v n' v' := by
  intro s shows keeps
  obtain ⟨m, t, le', rest⟩ := h s shows keeps
  exact ⟨m, t, Nat.le_trans le le', rest⟩

/-- Where the machine goes may be found out with what is always true. -/
theorem of_sound (h : x.Sound v → x.Goes j n v n' v') : x.Goes j n v n' v' :=
  fun s shows keeps => h shows.sound s shows keeps

theorem faults (first : x.Goes j n v n' v') (second : x.Faults n' v' output) :
    x.Faults n v output := by
  intro s shows keeps
  obtain ⟨m, t, -, advances, shows'⟩ := first s shows keeps
  obtain ⟨m', t', t'', a, advances', rest⟩ :=
    second t shows' fun overflows => keeps (advances.overflows overflows)
  exact ⟨m + m', t', t'', a, advances.trans advances', rest⟩

theorem lasts (first : x.Goes j n v n' v') (second : x.Lasts j' n' v' output) :
    x.Lasts (j + j') n v output := by
  intro s shows keeps
  obtain ⟨m, t, le, advances, shows'⟩ := first s shows keeps
  obtain ⟨m', t', le', advances', eq⟩ :=
    second t shows' fun overflows => keeps (advances.overflows overflows)
  exact ⟨m + m', t', Nat.add_le_add le le', advances.trans advances', eq⟩

end Goes

theorem Faults.of_sound (h : x.Sound v → x.Faults n v output) : x.Faults n v output :=
  fun s shows keeps => h shows.sound s shows keeps

theorem Lasts.mono (h : x.Lasts j n v output) (le : j' ≤ j) : x.Lasts j' n v output := by
  intro s shows keeps
  obtain ⟨m, t, le', rest⟩ := h s shows keeps
  exact ⟨m, t, Nat.le_trans le le', rest⟩

/-! ## One instruction -/

/-- The addresses of a loaded program are positive 32-bit numbers. -/
theorem address_lt (le : n ≤ x.program.code.length) : x.program.address n < 0x80000000 := by
  have := x.program.entryPoint_add
  have := x.room
  have := x.size
  unfold Config.stackLimit at *
  unfold Program.address
  omega

/-- An instruction of a program is one of its words. -/
theorem has_lt {p : Program} {i : Instruction} (has : p.Has n i) : n < p.code.length := by
  obtain ⟨word, there, -⟩ := has
  exact (List.getElem?_eq_some_iff.1 there).1

namespace Shows

variable {s s' : State} {i : Instruction}

/-- The machine is going. -/
theorem going (h : x.Shows s n v) : s.pc ≠ 0 := by
  intro zero
  have pc := h.pc
  rw [zero] at pc
  unfold Program.address Program.entryPoint loadAddress at pc
  have : (0 : Int32).toInt = 0 := rfl
  omega

/-- There are steps left. -/
theorem exhausted (h : x.Shows s n v) : s.exhausted? = none := by
  rw [State.exhausted?, h.config, x.unlimited]
  rfl

/-- The machine fetches the instruction. -/
theorem fetch (h : x.Shows s n v) (has : x.program.Has n i) : s.fetch = .ok i := by
  refine State.Carries.fetch ?_ has h.pc
  rw [State.Carries, h.memory]
  exact h.sound.carries

/-- A register other than the program counter is read as it is seen. -/
theorem read (h : x.Shows s n v) {r : Register} (ne : r ≠ .pc) :
    s.ready.readRegister r = v.get r := by
  rw [State.readRegister, if_neg ne]
  show s.registers.get r = _
  rw [h.registers]
  rfl

/-- Without a jump, the next instruction is the one behind this one. -/
theorem nextPc (h : x.Shows s n v) (lt : n < x.program.code.length) :
    s.ready.nextPc.toInt = x.program.address (n + 1) := by
  have bound := x.address_lt lt
  have pc := h.pc
  show (s.pc + Int32.ofInt 4).toInt = _
  unfold Program.address at *
  rw [toInt_add_ofInt] <;> omega

/-- At a distance from this instruction there is another one. -/
theorem add_offset (h : x.Shows s n v) {offset : Int32} (le : n' ≤ x.program.code.length)
    (distance : offset.toInt = ((n' : Int) - n) * 4) :
    (s.pc + offset).toInt = x.program.address n' := by
  have bound := x.address_lt le
  have pc := h.pc
  rw [← Int32.ofInt_toInt offset, toInt_add_ofInt] <;> unfold Program.address at * <;> omega

/-- **What an instruction does to what is seen** is what it does, unless it goes
somewhere that is no instruction. -/
theorem advances (h : x.Shows s n v) (has : x.program.Has n i)
    (executed : s.ready.execute i = (s', .ok ())) (keeps : ¬ s.Overflows)
    (config : s'.config = s.config) (next : s'.nextPc.toInt = x.program.address n')
    (registers : s'.registers = v'.registers) (memory : s'.memory = v'.memory)
    (output : s'.output = v'.output) (zero : v'.get .zero = v.get .zero)
    (carries : v'.memory.Holds loadAddress x.program.image)
    (size : v'.memory.size = v.memory.size) :
    ∃ m s', 1 ≤ m ∧ s.Advances m s' ∧ x.Shows s' n' v' := by
  have nonzero : s'.nextPc ≠ 0 := by
    intro zero
    rw [zero] at next
    unfold Program.address Program.entryPoint loadAddress at next
    have : (0 : Int32).toInt = 0 := rfl
    omega
  obtain ⟨advances, limit⟩ :=
    State.advances_of_fetch h.going h.exhausted (h.fetch has) executed keeps nonzero
  refine ⟨1, s'.moved, Nat.le_refl _, advances, ?_⟩
  rw [config, h.config, registers] at limit
  exact {
    config := config.trans h.config
    pc := next
    registers, memory, output
    sound := ⟨carries, size.trans h.sound.size, zero.trans h.sound.zero, limit⟩ }

end Shows

variable {d r a b base : Register} {op : AluOp} {value imm offset : Int32}

/-- An instruction that writes a register and nothing else. -/
theorem goes_of_write {i : Instruction} (has : x.program.Has n i) (ne : d ≠ .pc)
    (executed : ∀ s, x.Shows s n v →
      s.ready.execute i = (s.ready.writeRegister d value, .ok ())) :
    x.Goes 1 n v (n + 1) (v.set d value) := by
  intro s shows keeps
  have executed := executed s shows
  rw [State.writeRegister, if_neg ne] at executed
  refine shows.advances has executed keeps rfl (shows.nextPc (has_lt has)) ?_ shows.memory
    shows.output View.get_zero_set shows.sound.carries rfl
  show s.registers.set d value = v.registers.set d value
  rw [shows.registers]

theorem goes_immediate (has : x.program.Has n (.immediate op d a imm)) (ne : d ≠ .pc)
    (ne' : a ≠ .pc) (computed : State.compute? op (v.get a) imm = some value) :
    x.Goes 1 n v (n + 1) (v.set d value) := by
  refine goes_of_write has ne fun s shows => ?_
  simp only [State.execute, shows.read ne', computed]

theorem goes_operation (has : x.program.Has n (.operation op d a b)) (ne : d ≠ .pc)
    (ne' : a ≠ .pc) (ne'' : b ≠ .pc)
    (computed : State.compute? op (v.get a) (v.get b) = some value) :
    x.Goes 1 n v (n + 1) (v.set d value) := by
  refine goes_of_write has ne fun s shows => ?_
  simp only [State.execute, shows.read ne', shows.read ne'', computed]

/-- The address of another instruction is put into a register. -/
theorem goes_address (has : x.program.Has n (.immediate .add d .pc offset)) (ne : d ≠ .pc)
    (le : n' ≤ x.program.code.length) (distance : offset.toInt = ((n' : Int) - n) * 4) :
    x.Goes 1 n v (n + 1) (v.set d (Int32.ofInt (x.program.address n'))) := by
  refine goes_of_write has ne fun s shows => ?_
  have eq : s.pc + offset = Int32.ofInt (x.program.address n') := by
    rw [← shows.add_offset le distance, Int32.ofInt_toInt]
  show (s.ready.writeRegister d (s.pc + offset), _) = _
  rw [eq]

/-- The address of the instruction with something added is put into a register. -/
theorem goes_relative (has : x.program.Has n (.immediate .add d .pc offset)) (ne : d ≠ .pc) :
    x.Goes 1 n v (n + 1) (v.set d (Int32.ofInt (x.program.address n) + offset)) := by
  refine goes_of_write has ne fun s shows => ?_
  rw [← shows.pc, Int32.ofInt_toInt]
  rfl

theorem goes_load (has : x.program.Has n (.memory .load r base offset)) (ne : r ≠ .pc)
    (ne' : base ≠ .pc) {address : Nat} (there : (v.get base).toInt + offset.toInt = address)
    (holds : v.memory.Holds address (wordBytes value.toUInt32)) :
    x.Goes 1 n v (n + 1) (v.set r value) := by
  refine goes_of_write has ne fun s shows => ?_
  have memory : s.ready.memory = v.memory := shows.memory
  simp only [State.execute, shows.read ne', there, memory, holds.readWord,
    Int32.toInt32_toUInt32]

theorem goes_store (has : x.program.Has n (.memory .store r base offset)) (ne : r ≠ .pc)
    (ne' : base ≠ .pc) {address : Nat} (there : (v.get base).toInt + offset.toInt = address)
    (low : x.config.stackLimit ≤ address) (high : address + 4 ≤ x.config.memorySize) :
    x.Goes 1 n v (n + 1) (v.store address (v.get r)) := by
  intro s shows keeps
  have size : s.ready.memory.size = x.config.memorySize := by
    rw [← shows.sound.size, ← shows.memory]
    rfl
  have range : s.ready.memory.range (address : Nat) 4 = .ok address := by
    rw [Memory.range, if_neg (by omega), Int.toNat_natCast]
  have executed : s.ready.execute (.memory .store r base offset)
      = ({ s.ready with
            memory := s.ready.memory.setBytes address (wordBytes (v.get r).toUInt32) },
          .ok ()) := by
    simp only [State.execute, shows.read ne, shows.read ne', there, range]
  refine shows.advances has executed keeps rfl (shows.nextPc (has_lt has)) ?_ ?_
    ?_ View.get_store ?_ View.size_store
  · rw [View.registers_store]
    exact shows.registers
  · show s.memory.setBytes _ _ = v.memory.setBytes _ _
    rw [shows.memory]
  · rw [View.output_store]
    exact shows.output
  · refine shows.sound.carries.setBytes_of_disjoint (.inl ?_)
    have := x.room
    rw [Program.length_image]
    omega

/-- The machine goes to another instruction. -/
theorem goes_of_jump {i : Instruction} (target : State → Int32) (has : x.program.Has n i)
    (executed : ∀ s, x.Shows s n v →
      s.ready.execute i = ({ s.ready with nextPc := target s }, .ok ()))
    (there : ∀ s, x.Shows s n v → (target s).toInt = x.program.address n') :
    x.Goes 1 n v n' v := by
  intro s shows keeps
  exact shows.advances has (executed s shows) keeps rfl (there s shows) shows.registers
    shows.memory shows.output rfl shows.sound.carries rfl

theorem goes_jump (has : x.program.Has n (.jump offset)) (le : n' ≤ x.program.code.length)
    (distance : offset.toInt = ((n' : Int) - n) * 4) : x.Goes 1 n v n' v :=
  goes_of_jump _ has (fun _ _ => rfl) fun _ shows => shows.add_offset le distance

/-- A branch is taken if the registers differ. -/
theorem goes_bne (has : x.program.Has n (.branch .bne a b offset)) (ne : a ≠ .pc) (ne' : b ≠ .pc)
    (differ : v.get a ≠ v.get b) (le : n' ≤ x.program.code.length)
    (distance : offset.toInt = ((n' : Int) - n) * 4) : x.Goes 1 n v n' v := by
  refine goes_of_jump _ has (fun s shows => ?_) fun _ shows => shows.add_offset le distance
  rw [← shows.read ne, ← shows.read ne'] at differ
  exact State.execute_bne differ offset

/-- A branch is not taken if they do not. -/
theorem goes_bne_of_eq (has : x.program.Has n (.branch .bne a b offset)) (ne : a ≠ .pc)
    (ne' : b ≠ .pc) (same : v.get a = v.get b) : x.Goes 1 n v (n + 1) v := by
  refine goes_of_jump (fun s => s.ready.nextPc) has (fun s shows => ?_)
    fun _ shows => shows.nextPc (has_lt has)
  simp only [State.execute, shows.read ne, shows.read ne', same, BEq.rfl, Bool.not_true,
    Bool.false_eq_true, ↓reduceIte]

/-- A jump to the address in a register. -/
theorem goes_back (has : x.program.Has n (.operation .add .pc a .zero)) (ne : a ≠ .pc)
    (there : (v.get a).toInt = x.program.address n') : x.Goes 1 n v n' v := by
  refine goes_of_jump (fun _ => v.get a) has (fun s shows => ?_) fun _ _ => there
  simp only [State.execute, State.compute?, shows.read ne,
    shows.read (show Register.zero ≠ .pc by decide), shows.sound.zero, Int32.add_zero]
  rfl

theorem goes_printi (has : x.program.Has n (.env .call)) (number : v.get .a0 = 3) :
    x.Goes 1 n v (n + 1) (v.print (v.get .a1)) := by
  intro s shows keeps
  have executed : s.ready.execute (.env .call)
      = ({ s.ready with output := State.printWord s.output (v.get .a1) }, .ok ()) := by
    have call : s.ready.registers.get .a0 = 3 :=
      (shows.read (show Register.a0 ≠ .pc by decide)).trans number
    have argument : s.ready.registers.get .a1 = v.get .a1 :=
      shows.read (show Register.a1 ≠ .pc by decide)
    simp only [State.execute, State.hostCall, call, argument]
    rfl
  refine shows.advances has executed keeps rfl (shows.nextPc (has_lt has)) shows.registers
    shows.memory ?_ View.get_print shows.sound.carries rfl
  show State.printWord s.output _ = State.printWord v.output _
  rw [shows.output]

/-- A jump to address zero is the end of the program. -/
theorem stops (has : x.program.Has n (.operation .add .pc .zero .zero)) (s : State)
    (shows : x.Shows s n v) :
    ∃ s', s.runFor 1 = (s', some (.ok (v.get .a0))) ∧ s'.output = v.output := by
  have executed : s.ready.execute (.operation .add .pc .zero .zero)
      = ({ s.ready with nextPc := 0 }, .ok ()) := by
    simp only [State.execute, State.compute?, shows.read (show Register.zero ≠ .pc by decide),
      shows.sound.zero]
    rfl
  have limit : ¬ (s.registers.get .sp).toInt < s.config.stackLimit := by
    have := shows.sound.limit
    rw [shows.registers, shows.config]
    exact Int.not_lt.2 this
  have stepped : s.step = (State.moved { s.ready with nextPc := 0 }, .ok false) := by
    rw [State.step_of_fetch shows.going shows.exhausted (shows.fetch has) executed]
    show (_, if (s.registers.get .sp).toInt < s.config.stackLimit then _ else _) = _
    rw [if_neg limit]
    rfl
  refine ⟨State.moved { s.ready with nextPc := 0 }, ?_, shows.output⟩
  rw [State.runFor, stepped]
  show _ = (_, some (Except.ok (v.registers.get .a0)))
  rw [← shows.registers]
  rfl

/-- A division by zero is found out. -/
theorem faults_of_compute {i : Instruction} (has : x.program.Has n i)
    (executed : ∀ s, x.Shows s n v →
      s.ready.execute i = (s.ready, .error (.divisionByZero s.pc))) :
    x.Faults n v v.output := by
  intro s shows _
  have stepped := State.step_of_fault shows.going shows.exhausted (shows.fetch has)
    (executed s shows)
  exact ⟨0, s, s.ready, s.pc, rfl, stepped, shows.output⟩

theorem faults_immediate (has : x.program.Has n (.immediate op d a imm)) (ne : a ≠ .pc)
    (undefined : State.compute? op (v.get a) imm = none) : x.Faults n v v.output := by
  refine faults_of_compute has fun s shows => ?_
  simp only [State.execute, shows.read ne, undefined]
  rfl

theorem faults_operation (has : x.program.Has n (.operation op d a b)) (ne : a ≠ .pc)
    (ne' : b ≠ .pc) (undefined : State.compute? op (v.get a) (v.get b) = none) :
    x.Faults n v v.output := by
  refine faults_of_compute has fun s shows => ?_
  simp only [State.execute, shows.read ne, shows.read ne', undefined]
  rfl

/-! ## From the start -/

/-- A program that was just loaded is before its first instruction, and the stack is
empty. -/
theorem exists_shows {config : Config} {p : Program} {input : List UInt8} {start : State}
    (loaded : State.load config p input = .ok start) (unlimited : config.maxSteps = none) :
    ∃ (x : Setup) (v : View), x.program = p ∧ x.config = config ∧ x.Shows start 0 v
      ∧ (v.get .sp).toInt = config.memorySize ∧ v.output = #[] := by
  obtain ⟨valid, fits, eq⟩ := State.load_eq_ok loaded
  obtain ⟨size, -, -⟩ := State.memorySize_lt_of_validate valid
  have le : config.stackLimit ≤ config.memorySize := Nat.sub_le _ _
  have entry := p.entryPoint_add
  have pc : start.pc.toInt = p.entryPoint := by
    rw [eq]
    exact Int32.toInt_ofNat_of_lt (by omega)
  have sp : (start.registers.get .sp).toInt = config.memorySize := by
    rw [eq, Registers.get_set_self (by decide)]
    exact Int32.toInt_ofNat_of_lt size
  refine ⟨⟨p, config, fits, size, unlimited⟩, ⟨start.registers, start.memory, start.output⟩, rfl,
    rfl, ⟨by rw [eq], pc, rfl, rfl, rfl, ⟨State.carries_of_load loaded, ?_, ?_, ?_⟩⟩, sp, by rw [eq]⟩
  · rw [eq, Memory.size_setBytes]
    rfl
  · show start.registers.get .zero = 0
    rw [eq, Registers.get_set_of_ne (by decide), Registers.get_zeros]
  · show (config.stackLimit : Int) ≤ (start.registers.get .sp).toInt
    omega

end Setup

end Polyglot.Machine
