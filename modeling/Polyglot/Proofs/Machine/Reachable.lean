import Polyglot.Proofs.Machine.Execution

/-!
# What is true of every machine on its way

A machine that was loaded and has made some steps since, without a fault and without coming to
the end, is in order (`State.InOrder`): register zero is zero, the stack pointer is not below the stack
limit, and addresses are numbers of 31 bits. This is so after loading, and a step keeps it.

A call to the host does not look at where the program is, so it does the same for a machine
at another instruction (`State.hostCall_relocated`); only the fault says where it was made.
-/

namespace Polyglot.Machine

/-! ## Kinds of faults -/

/-- The kinds of faults. -/
inductive Fault.Kind where
  | segmentFault | invalidEnvCall | stackOverflow | outOfMemory | decode | divisionByZero
  | invalidInteger | malformedProgram | invalidConfig | stepLimit
  deriving DecidableEq, Repr

/-- The kind of a fault, without the particulars. -/
def Fault.kind : Fault → Fault.Kind
  | .segmentFault _ => .segmentFault
  | .invalidEnvCall .. => .invalidEnvCall
  | .stackOverflow .. => .stackOverflow
  | .outOfMemory .. => .outOfMemory
  | .decode .. => .decode
  | .divisionByZero _ => .divisionByZero
  | .invalidInteger _ => .invalidInteger
  | .malformedProgram _ => .malformedProgram
  | .invalidConfig _ => .invalidConfig
  | .stepLimit _ => .stepLimit

theorem Registers.get_zero_set (rs : Registers) (r : Register) (value : Int32) :
    (rs.set r value).get .zero = rs.get .zero := by
  by_cases zero : r = .zero
  · rw [Registers.set, if_pos zero]
  · exact Registers.get_set_of_ne (Ne.symm zero)

theorem Registers.set_set (rs : Registers) (r : Register) (a b : Int32) :
    (rs.set r a).set r b = rs.set r b := by
  unfold Registers.set
  split
  · rfl
  · simp

namespace State

variable {s t : State} {n : Nat}

/-! ## Calls to the host -/

/-- The machine at another instruction, after another number of steps. -/
def relocated (s : State) (pc nextPc : Int32) (steps : Nat) : State :=
  { s with pc, nextPc, steps }

/-- **A call to the host does the same at another instruction**, and if it fails there, then for the same
reason. -/
theorem hostCall_relocated (s : State) (pc nextPc : Int32) (steps : Nat) :
    (s.relocated pc nextPc steps).hostCall.1 = s.hostCall.1.relocated pc nextPc steps
      ∧ (s.relocated pc nextPc steps).hostCall.2.mapError Fault.kind
        = s.hostCall.2.mapError Fault.kind := by
  unfold hostCall relocated
  dsimp only
  split
  · exact ⟨rfl, rfl⟩
  · split <;> exact ⟨rfl, rfl⟩
  · split <;> exact ⟨rfl, rfl⟩
  · split
    · exact ⟨rfl, rfl⟩
    · split <;> exact ⟨rfl, rfl⟩
  · exact ⟨rfl, rfl⟩
  · split <;> exact ⟨rfl, rfl⟩
  · exact ⟨rfl, rfl⟩

/-! ## Machines in order -/

/-- What an instruction leaves as it is. -/
structure Keeps (s t : State) : Prop where
  /-- The parameters. -/
  config : t.config = s.config
  /-- The size of the memory. -/
  size : t.memory.size = s.memory.size
  /-- Register zero. -/
  zero : t.registers.get .zero = s.registers.get .zero

theorem Keeps.refl (s : State) : Keeps s s := ⟨rfl, rfl, rfl⟩

theorem keeps_writeRegister {r : Register} {value : Int32} : Keeps s (s.writeRegister r value) := by
  unfold writeRegister
  split
  · exact ⟨rfl, rfl, rfl⟩
  · exact ⟨rfl, rfl, Registers.get_zero_set ..⟩

theorem keeps_hostCall : Keeps s s.hostCall.1 := by
  unfold hostCall
  dsimp only
  split
  · exact .refl s
  · split <;> exact ⟨rfl, rfl, rfl⟩
  · split
    · exact ⟨rfl, rfl, rfl⟩
    · exact ⟨rfl, Memory.size_setBytes .., Registers.get_zero_set ..⟩
  · split
    · exact .refl s
    · split
      · exact .refl s
      · exact ⟨rfl, rfl, Registers.get_zero_set ..⟩
  · exact ⟨rfl, rfl, rfl⟩
  · split
    · exact .refl s
    · exact ⟨rfl, rfl, Registers.get_zero_set ..⟩
  · exact .refl s

theorem keeps_execute (i : Instruction) : Keeps s (s.execute i).1 := by
  cases i with
  | branch op a b offset =>
    cases op <;> simp only [execute] <;> split <;> exact ⟨rfl, rfl, rfl⟩
  | immediate op d a imm =>
    simp only [execute]
    split
    · exact .refl s
    · exact keeps_writeRegister
  | operation op d a b =>
    simp only [execute]
    split
    · exact .refl s
    · exact keeps_writeRegister
  | memory op r base offset =>
    cases op with
    | load =>
      simp only [execute]
      split
      · exact .refl s
      · exact keeps_writeRegister
    | store =>
      simp only [execute]
      split
      · exact .refl s
      · exact ⟨rfl, Memory.size_setBytes .., rfl⟩
  | jump offset => exact ⟨rfl, rfl, rfl⟩
  | env op =>
    cases op with
    | call => exact keeps_hostCall
    | «break» => exact .refl s

/-- Whether a machine without a limit of steps is on its way and its numbers are what they should
be. -/
structure InOrder (s : State) : Prop where
  /-- There is no limit of steps. -/
  unlimited : s.config.maxSteps = none
  /-- The machine has not come to the end. -/
  going : s.pc ≠ 0
  /-- Register zero is zero. -/
  zero : s.registers.get .zero = 0
  /-- The stack pointer is not below the stack limit. -/
  stack : (s.config.stackLimit : Int) ≤ (s.registers.get .sp).toInt
  /-- The stack limit is above where programs are loaded. -/
  room : loadAddress ≤ s.config.stackLimit
  /-- Addresses have 31 bits. -/
  size : s.memory.size < 0x80000000

theorem InOrder.exhausted (h : s.InOrder) : s.exhausted? = none := by
  rw [exhausted?, h.unlimited]
  rfl

/-- A machine is in order after loading. -/
theorem inOrder_of_load {config : Config} {p : Program} {input : List UInt8}
    (loaded : load config p input = .ok s) (unlimited : config.maxSteps = none) : s.InOrder := by
  obtain ⟨valid, le, rfl⟩ := load_eq_ok loaded
  obtain ⟨size, -, stack⟩ := memorySize_lt_of_validate valid
  have below : config.stackLimit ≤ config.memorySize := Nat.sub_le _ _
  have entry := p.entryPoint_add
  have inside : p.entryPoint ≤ config.memorySize := by omega
  have number {n : Nat} (le : n ≤ config.memorySize) : (Int32.ofNat n).toInt = n :=
    Int32.toInt_ofNat_of_lt (Nat.lt_of_le_of_lt le size)
  have room : loadAddress ≤ config.stackLimit := by omega
  refine ⟨unlimited, fun zero => ?_, ?_, ?_, room, by rwa [Memory.size_setBytes]⟩
  · have pc := number inside
    rw [show Int32.ofNat p.entryPoint = 0 from zero] at pc
    have : p.entryPoint = loadAddress + p.dataSize := rfl
    have : loadAddress = 4 := rfl
    rw [Int32.toInt_zero] at pc
    omega
  · rw [Registers.get_zero_set, Registers.get_zeros]
  · rw [Registers.get_set_self (by decide), number (Nat.le_refl _)]
    exact Int.ofNat_le.2 below

/-- **A step keeps a machine in order**, as long as it goes on. -/
theorem InOrder.step (h : s.InOrder) (stepped : s.step = (t, .ok true)) : t.InOrder := by
  obtain ⟨i, fetched⟩ : ∃ i, s.fetch = .ok i := by
    cases fetched : s.fetch with
    | ok i => exact ⟨i, rfl⟩
    | error e => simp [State.step, h.going, h.exhausted, fetched] at stepped
  have kept := keeps_execute (s := s.ready) i
  rcases executed : s.ready.execute i with ⟨s', _ | ⟨⟩⟩
  · rw [step_of_fault h.going h.exhausted fetched executed] at stepped
    cases stepped
  rw [executed] at kept
  rw [step_of_fetch h.going h.exhausted fetched executed] at stepped
  split at stepped
  · cases stepped
  rename_i above
  obtain ⟨rfl, next⟩ := Prod.mk.inj stepped
  have zero : s'.registers.get .zero = 0 := kept.zero.trans h.zero
  have config : s'.config = s.config := kept.config
  have size : s'.memory.size = s.memory.size := kept.size
  refine ⟨?_, bne_iff_ne.1 (Except.ok.inj next), zero, Int.not_lt.1 above, ?_, ?_⟩
  · exact (congrArg _ config).trans h.unlimited
  · exact (congrArg Config.stackLimit config).symm ▸ h.room
  · exact size.symm ▸ h.size

/-- A machine on its way is in order. -/
theorem InOrder.advances (h : s.InOrder) (advances : Advances n s t) : t.InOrder := by
  induction n generalizing s with
  | zero =>
    obtain rfl : s = t := advances
    exact h
  | succ n ih =>
    obtain ⟨u, stepped, rest⟩ := advances
    exact ih (h.step stepped) rest

end State

end Polyglot.Machine
