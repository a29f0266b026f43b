import Polyglot.Proofs.Machine.Views

/-!
# Stretches of a program

A stretch of a program that leaves the stack pointer alone can be followed without a word about the
stack: it is as far above the limit afterwards as it was before. So what is said here of such a
stretch is said of all machines that come to it, whatever becomes of them later.

The machine goes through a stretch and shows another view at its end (`Setup.Runs`), it stops
in it with a fault (`Setup.Breaks`), or it comes to its end with another memory (`Setup.Leaves`). The last of the
three does not say what is seen then, for a word may be written anywhere, over the program
as well. Each is also said of one machine (`Setup.Comes`, `State.Stops`, `Setup.Gets`), for what a machine reads
and what it reserves is not seen.
-/

namespace Polyglot.Machine

/-- A step that carries out an instruction is one of a machine that goes on, if the stack pointer is not
too low after it. -/
theorem State.advances_of_above {s s' : State} {i : Instruction} (going : s.pc ≠ 0)
    (unlimited : s.exhausted? = none) (fetched : s.fetch = .ok i) (executed : s.ready.execute i = (s', .ok ()))
    (above : (s'.config.stackLimit : Int) ≤ (s'.registers.get .sp).toInt) (next : s'.nextPc ≠ 0) :
    State.Advances 1 s s'.moved := by
  have stepped := State.step_of_fetch going unlimited fetched executed
  rw [if_neg (Int.not_lt.2 above), bne_iff_ne.2 next] at stepped
  exact ⟨_, stepped, rfl⟩

/-- Whether a machine stops with a fault. -/
def State.Stops (s : State) (fault : Fault) : Prop := ∃ m s' s'', s.Advances m s' ∧ s'.step = (s'', .error fault)

theorem State.Stops.after {s s' : State} {m : Nat} {fault : Fault} (h : s'.Stops fault) (advances : s.Advances m s') :
    s.Stops fault := by
  obtain ⟨m', t, t', advances', stepped⟩ := h
  exact ⟨m + m', t, t', advances.trans advances', stepped⟩

namespace Setup

variable (x : Setup)

/-- Whether a machine comes to an instruction and a view. -/
def Comes (s : State) (n : Nat) (v : View) : Prop := ∃ m s', s.Advances m s' ∧ x.Shows s' n v

/-- Whether a machine comes to an instruction with a memory. -/
def Gets (s : State) (n : Nat) (memory : Memory) : Prop :=
  ∃ m s', s.Advances m s' ∧ s'.pc.toInt = x.program.address n ∧ s'.memory = memory

/-- Whether the machine goes from an instruction and a view to others. -/
def Runs (n : Nat) (v : View) (n' : Nat) (v' : View) : Prop := ∀ s, x.Shows s n v → x.Comes s n' v'

/-- Whether the machine goes from an instruction and a view to a fault. -/
def Breaks (n : Nat) (v : View) (fault : Fault) : Prop := ∀ s, x.Shows s n v → s.Stops fault

/-- Whether the machine goes from an instruction and a view to another instruction, with this memory. -/
def Leaves (n : Nat) (v : View) (n' : Nat) (memory : Memory) : Prop := ∀ s, x.Shows s n v → x.Gets s n' memory

variable {x} {n n' n'' : Nat} {v v' v'' : View} {fault : Fault} {memory : Memory} {s s' : State} {m : Nat}

theorem Comes.after (h : x.Comes s' n v) (advances : s.Advances m s') : x.Comes s n v := by
  obtain ⟨m', t, advances', shows⟩ := h
  exact ⟨m + m', t, advances.trans advances', shows⟩

theorem Gets.after (h : x.Gets s' n memory) (advances : s.Advances m s') : x.Gets s n memory := by
  obtain ⟨m', t, advances', there⟩ := h
  exact ⟨m + m', t, advances.trans advances', there⟩

namespace Comes

/-- A machine that comes to the start of a stretch goes through it. -/
theorem runs (h : x.Comes s n v) (runs : x.Runs n v n' v') : x.Comes s n' v' := by
  obtain ⟨m, t, advances, shows⟩ := h
  exact (runs t shows).after advances

/-- A machine that comes to the start of a stretch stops in it. -/
theorem breaks (h : x.Comes s n v) (breaks : x.Breaks n v fault) : s.Stops fault := by
  obtain ⟨m, t, advances, shows⟩ := h
  exact (breaks t shows).after advances

/-- A machine that comes to the start of a stretch leaves it. -/
theorem leaves (h : x.Comes s n v) (leaves : x.Leaves n v n' memory) : x.Gets s n' memory := by
  obtain ⟨m, t, advances, shows⟩ := h
  exact (leaves t shows).after advances

end Comes

namespace Runs

theorem refl : x.Runs n v n v := fun s shows => ⟨0, s, rfl, shows⟩

theorem trans (first : x.Runs n v n' v') (second : x.Runs n' v' n'' v'') : x.Runs n v n'' v'' :=
  fun s shows => (first s shows).runs second

theorem breaks (first : x.Runs n v n' v') (second : x.Breaks n' v' fault) : x.Breaks n v fault :=
  fun s shows => (first s shows).breaks second

theorem leaves (first : x.Runs n v n' v') (second : x.Leaves n' v' n'' memory) : x.Leaves n v n'' memory :=
  fun s shows => (first s shows).leaves second

/-- Where the machine goes may be found out with what is always true. -/
theorem of_sound (h : x.Sound v → x.Runs n v n' v') : x.Runs n v n' v' :=
  fun s shows => h shows.sound s shows

end Runs

namespace Shows

variable {i : Instruction}

/-- The machine goes on to the next instruction if the stack pointer is the same. -/
theorem moves (h : x.Shows s n v) (has : x.program.Has n i) (executed : s.ready.execute i = (s', .ok ()))
    (config : s'.config = s.config) (next : s'.nextPc = s.ready.nextPc)
    (sp : s'.registers.get .sp = v.get .sp) :
    s.Advances 1 s'.moved ∧ s'.nextPc.toInt = x.program.address (n + 1) := by
  have there := h.nextPc (has_lt has)
  have nonzero : s'.nextPc ≠ 0 := by
    intro zero
    rw [← next, zero] at there
    unfold Program.address Program.entryPoint loadAddress at there
    have : (0 : Int32).toInt = 0 := rfl
    omega
  have above : (s'.config.stackLimit : Int) ≤ (s'.registers.get .sp).toInt := by
    rw [config, h.config, sp]
    exact h.sound.limit
  exact ⟨State.advances_of_above h.going h.exhausted (h.fetch has) executed above nonzero, next ▸ there⟩

/-- What is seen then, if the instruction does not write over the program. -/
theorem shows_moved (h : x.Shows s n v) (has : x.program.Has n i) (executed : s.ready.execute i = (s', .ok ()))
    (config : s'.config = s.config) (next : s'.nextPc = s.ready.nextPc) (registers : s'.registers = v'.registers)
    (memory : s'.memory = v'.memory) (output : s'.output = v'.output) (sp : v'.get .sp = v.get .sp)
    (zero : v'.get .zero = v.get .zero) (carries : v'.memory.Holds loadAddress x.program.image)
    (size : v'.memory.size = v.memory.size) : x.Comes s (n + 1) v' := by
  obtain ⟨advances, there⟩ := h.moves has executed config next ((congrArg (·.get .sp) registers).trans sp)
  exact ⟨1, s'.moved, advances, {
    config := config.trans h.config
    pc := there
    registers, memory, output
    sound := ⟨carries, size.trans h.sound.size, zero.trans h.sound.zero, sp ▸ h.sound.limit⟩ }⟩

end Shows

variable {d r a base : Register} {op : AluOp} {value imm offset : Int32}

/-- An instruction that writes a register and nothing else. -/
theorem runs_of_write {i : Instruction} (has : x.program.Has n i) (ne : d ≠ .pc) (ne' : d ≠ .sp)
    (executed : ∀ s, x.Shows s n v → s.ready.execute i = (s.ready.writeRegister d value, .ok ())) :
    x.Runs n v (n + 1) (v.set d value) := by
  intro s shows
  have executed := executed s shows
  rw [State.writeRegister, if_neg ne] at executed
  refine shows.shows_moved has executed rfl rfl ?_ shows.memory shows.output (View.get_set_of_ne ne'.symm)
    View.get_zero_set shows.sound.carries rfl
  show s.registers.set d value = v.registers.set d value
  rw [shows.registers]

theorem runs_immediate (has : x.program.Has n (.immediate op d a imm)) (ne : d ≠ .pc) (ne' : d ≠ .sp)
    (ne'' : a ≠ .pc) (computed : State.compute? op (v.get a) imm = some value) :
    x.Runs n v (n + 1) (v.set d value) := by
  refine runs_of_write has ne ne' fun s shows => ?_
  simp only [State.execute, shows.read ne'', computed]

/-- An address is put into a register that is so far from the instruction. -/
theorem runs_address (has : x.program.Has n (.immediate .add d .pc offset)) (ne : d ≠ .pc) (ne' : d ≠ .sp) :
    x.Runs n v (n + 1) (v.set d (Int32.ofInt (x.program.address n) + offset)) := by
  refine runs_of_write has ne ne' fun s shows => ?_
  have here : s.pc = Int32.ofInt (x.program.address n) := by rw [← shows.pc, Int32.ofInt_toInt]
  rw [← here]
  rfl

theorem runs_load (has : x.program.Has n (.memory .load r base offset)) (ne : r ≠ .pc) (ne' : r ≠ .sp)
    (ne'' : base ≠ .pc) {word : UInt32}
    (read : v.memory.readWord ((v.get base).toInt + offset.toInt) = .ok word) :
    x.Runs n v (n + 1) (v.set r word.toInt32) := by
  refine runs_of_write has ne ne' fun s shows => ?_
  have memory : s.ready.memory = v.memory := shows.memory
  simp only [State.execute, shows.read ne'', memory, read]

/-- A word that is not in the memory cannot be loaded. -/
theorem breaks_load (has : x.program.Has n (.memory .load r base offset)) (ne : base ≠ .pc)
    (outside : v.memory.readWord ((v.get base).toInt + offset.toInt) = .error fault) : x.Breaks n v fault := by
  intro s shows
  have memory : s.ready.memory = v.memory := shows.memory
  have executed : s.ready.execute (.memory .load r base offset) = (s.ready, .error fault) := by
    simp only [State.execute, shows.read ne, memory, outside]
  exact ⟨0, s, s.ready, rfl, State.step_of_fault shows.going shows.exhausted (shows.fetch has) executed⟩

/-- A word is written anywhere in the memory. -/
theorem leaves_store (has : x.program.Has n (.memory .store r base offset)) (ne : r ≠ .pc) (ne' : base ≠ .pc)
    (written : v.memory.writeWord ((v.get base).toInt + offset.toInt) (v.get r).toUInt32 = .ok memory) :
    x.Leaves n v (n + 1) memory := by
  intro s shows
  have same : s.ready.memory = v.memory := shows.memory
  obtain ⟨address, within, eq⟩ := Except.bind_eq_ok.1 written
  have executed : s.ready.execute (.memory .store r base offset) = ({ s.ready with memory }, .ok ()) := by
    simp only [State.execute, shows.read ne, shows.read ne', same, within]
    rw [← Except.pure_eq_ok.1 eq]
  obtain ⟨advances, there⟩ := shows.moves has executed rfl rfl (congrArg (·.get .sp) shows.registers)
  exact ⟨1, _, advances, there, rfl⟩

/-- A word that is not in the memory cannot be written. -/
theorem breaks_store (has : x.program.Has n (.memory .store r base offset)) (ne : base ≠ .pc)
    (outside : v.memory.writeWord ((v.get base).toInt + offset.toInt) (v.get r).toUInt32 = .error fault) :
    x.Breaks n v fault := by
  intro s shows
  have same : s.ready.memory = v.memory := shows.memory
  have beyond : v.memory.range ((v.get base).toInt + offset.toInt) 4 = .error fault := by
    rw [Memory.writeWord] at outside
    cases within : v.memory.range ((v.get base).toInt + offset.toInt) 4 with
    | error e =>
      rw [within] at outside
      exact congrArg Except.error (Except.error.inj outside)
    | ok address =>
      rw [within] at outside
      cases outside
  have executed : s.ready.execute (.memory .store r base offset) = (s.ready, .error fault) := by
    simp only [State.execute, shows.read ne, same, beyond]
  exact ⟨0, s, s.ready, rfl, State.step_of_fault shows.going shows.exhausted (shows.fetch has) executed⟩

/-- A word is written to the stack. -/
theorem runs_store (has : x.program.Has n (.memory .store r base offset)) (ne : r ≠ .pc) (ne' : base ≠ .pc)
    {address : Nat} (there : (v.get base).toInt + offset.toInt = address) (low : x.config.stackLimit ≤ address)
    (high : address + 4 ≤ x.config.memorySize) : x.Runs n v (n + 1) (v.store address (v.get r)) := by
  intro s shows
  have size : s.ready.memory.size = x.config.memorySize := by
    rw [← shows.sound.size, ← shows.memory]
    rfl
  have range : s.ready.memory.range (address : Nat) 4 = .ok address := by
    rw [Memory.range, if_neg (by omega), Int.toNat_natCast]
  have executed : s.ready.execute (.memory .store r base offset)
      = ({ s.ready with memory := s.ready.memory.setBytes address (wordBytes (v.get r).toUInt32) }, .ok ()) := by
    simp only [State.execute, shows.read ne, shows.read ne', there, range]
  refine shows.shows_moved has executed rfl rfl ?_ ?_ ?_ View.get_store View.get_store ?_ View.size_store
  · rw [View.registers_store]
    exact shows.registers
  · show s.memory.setBytes _ _ = v.memory.setBytes _ _
    rw [shows.memory]
  · rw [View.output_store]
    exact shows.output
  · refine shows.sound.carries.setBytes_of_disjoint (.inl ?_)
    have := x.room
    rw [Program.length_image]
    omega

end Setup

end Polyglot.Machine
