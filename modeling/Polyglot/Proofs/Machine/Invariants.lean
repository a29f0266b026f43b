import Mathlib
import Polyglot.Proofs.Machine.Reachable

/-!
# What every run keeps

A machine can be stepped as often as one likes. A program may write any register and any byte of
the memory, its own words among them, and a step that fails still leaves a machine that can be
stepped again. So what is said here is said of all machines that come of stepping one that was
just loaded, **whatever came of the steps** (`State.after`): there is no assumption on what the
memory holds, and none that the steps before went well.

What a step can do to a machine is bounded by what an instruction can do (`State.Keeps`), and to
the heap by the one call that reserves memory (`State.heap_hostCall`). An invariant is then kept by
every step (`State.Sound.step`), and so by every run (`State.Sound.after`).

A step that succeeds leaves the stack pointer in its region, as that is what it checks last. **The
check is not made when the machine has stopped already**, so it takes a run without a
fault to say the same of every machine on the way (`State.stack_of_succeeds`).
-/

namespace Polyglot.Machine

namespace State

variable {s : State} {config : Config} {p : Program}

/-- The machine after a number of steps, whatever came of them. -/
def after (s : State) : Nat → State
  | 0 => s
  | n + 1 => (s.after n).step.1

/-! ## The heap -/

/-- Where the free heap starts after a block of a number of bytes. -/
def heapBehind (s : State) (bytes : Int32) : Nat := (s.heap + bytes.toInt.toNat + 3) / 4 * 4

theorem dvd_heapBehind (bytes : Int32) : 4 ∣ s.heapBehind bytes := Nat.dvd_mul_left _ _

theorem le_heapBehind (bytes : Int32) : s.heap + bytes.toInt.toNat ≤ s.heapBehind bytes := by
  unfold heapBehind
  omega

/-- Whether the number of bytes that are asked for does not fit below the stack. -/
def Exceeds (s : State) (bytes : Int32) : Prop :=
  bytes < 0 ∨ s.config.stackLimit < s.heapBehind bytes

/-- **A call for memory** fails if the memory does not fit, and takes it from the free heap otherwise. -/
theorem hostCall_alloc (call : Syscall.ofNumber? (s.registers.get .a0).toInt = some .alloc) :
    s.Exceeds (s.registers.get .a1) ∧ s.hostCall = (s, .error (.outOfMemory (s.registers.get .a1)
        ((s.config.stackLimit : Int) - s.heap)))
      ∨ ¬ s.Exceeds (s.registers.get .a1) ∧ s.hostCall = ({ s with
          heap := s.heapBehind (s.registers.get .a1)
          registers := s.registers.set .a0 (Int32.ofNat s.heap) }, .ok ()) := by
  unfold hostCall
  dsimp only
  rw [call]
  dsimp only
  by_cases exceeds : s.Exceeds (s.registers.get .a1)
  · exact .inl ⟨exceeds, if_pos exceeds⟩
  · exact .inr ⟨exceeds, if_neg exceeds⟩

/-- **Only a call for memory** that succeeds moves the start of the free heap. -/
theorem heap_hostCall : s.hostCall.1.heap = s.heap
    ∨ Syscall.ofNumber? (s.registers.get .a0).toInt = some .alloc
      ∧ ¬ s.Exceeds (s.registers.get .a1)
      ∧ s.hostCall.1.heap = s.heapBehind (s.registers.get .a1) := by
  by_cases call : Syscall.ofNumber? (s.registers.get .a0).toInt = some .alloc
  · obtain ⟨-, eq⟩ | ⟨fits, eq⟩ := hostCall_alloc call
    · exact .inl (by rw [eq])
    · exact .inr ⟨call, fits, by rw [eq]⟩
  · refine .inl ?_
    unfold hostCall
    dsimp only
    split
    · rfl
    · split <;> rfl
    · split <;> rfl
    · split
      · rfl
      · split <;> rfl
    · rfl
    · exact absurd ‹_› call
    · rfl

/-- A call to the host does not count as a step by itself. -/
theorem steps_hostCall : s.hostCall.1.steps = s.steps := by
  have same : s.hostCall.1 = s.hostCall.1.relocated s.pc s.nextPc s.steps :=
    (hostCall_relocated s s.pc s.nextPc s.steps).1
  rw [same]
  rfl

theorem writeRegister_heap_steps (r : Register) (value : Int32) :
    (s.writeRegister r value).heap = s.heap ∧ (s.writeRegister r value).steps = s.steps := by
  unfold writeRegister
  split <;> exact ⟨rfl, rfl⟩

/-- An instruction that is no call to the host leaves the heap alone. -/
theorem execute_heap_steps {i : Instruction} (other : i ≠ .env .call) :
    (s.execute i).1.heap = s.heap ∧ (s.execute i).1.steps = s.steps := by
  cases i with
  | branch op a b offset =>
    cases op <;> simp only [execute] <;> split <;> exact ⟨rfl, rfl⟩
  | immediate op d a imm =>
    simp only [execute]
    split
    · exact ⟨rfl, rfl⟩
    · exact writeRegister_heap_steps _ _
  | operation op d a b =>
    simp only [execute]
    split
    · exact ⟨rfl, rfl⟩
    · exact writeRegister_heap_steps _ _
  | memory op r base offset =>
    cases op with
    | load =>
      simp only [execute]
      split
      · exact ⟨rfl, rfl⟩
      · exact writeRegister_heap_steps _ _
    | store =>
      simp only [execute]
      split <;> exact ⟨rfl, rfl⟩
  | jump offset => exact ⟨rfl, rfl⟩
  | env op =>
    cases op with
    | call => exact absurd rfl other
    | «break» => exact ⟨rfl, rfl⟩

theorem steps_execute (i : Instruction) : (s.execute i).1.steps = s.steps := by
  by_cases call : i = .env .call
  · subst call
    exact steps_hostCall
  · exact (execute_heap_steps call).2

/-! ## Steps -/

/-- **What a step does**: nothing, or it carries out the instruction that is fetched, and goes on
with the next one if that went well. -/
theorem step_cases (s : State) :
    s.step.1 = s ∧ (∀ going, s.step.2 = .ok going → s.pc = 0 ∧ going = false)
    ∨ ∃ i, s.pc ≠ 0 ∧ s.exhausted? = none ∧ s.fetch = .ok i
      ∧ ((∃ fault, (s.ready.execute i).2 = .error fault
          ∧ s.step = ((s.ready.execute i).1, .error fault))
        ∨ (s.ready.execute i).2 = .ok () ∧ s.step.1 = (s.ready.execute i).1.moved
          ∧ ∀ going, s.step.2 = .ok going →
            (s.step.1.config.stackLimit : Int) ≤ (s.step.1.registers.get .sp).toInt) := by
  by_cases stopped : s.pc = 0
  · have eq : s.step = (s, .ok false) := by rw [step, if_pos stopped]
    rw [eq]
    exact .inl ⟨rfl, fun going same => ⟨stopped, (Except.ok.inj same).symm⟩⟩
  cases limit : s.exhausted? with
  | some n =>
    have eq : s.step = (s, .error (.stepLimit n)) := by
      simp only [step, stopped, ↓reduceIte, limit]
    rw [eq]
    exact .inl ⟨rfl, fun _ failed => by cases failed⟩
  | none =>
    cases fetched : s.fetch with
    | error fault =>
      have eq : s.step = (s, .error fault) := by
        simp only [step, stopped, ↓reduceIte, limit, fetched]
      rw [eq]
      exact .inl ⟨rfl, fun _ failed => by cases failed⟩
    | ok i =>
      refine .inr ⟨i, stopped, rfl, rfl, ?_⟩
      rcases executed : s.ready.execute i with ⟨t, fault | ⟨⟩⟩
      · exact .inl ⟨fault, rfl, step_of_fault stopped limit fetched executed⟩
      · refine .inr ⟨rfl, step_fst_of_fetch stopped limit fetched executed, fun going same => ?_⟩
        rw [step_of_fetch stopped limit fetched executed] at same ⊢
        dsimp only at same ⊢
        split at same
        · cases same
        · exact Int.not_lt.1 ‹_›

/-- A step changes no more than an instruction does. -/
theorem keeps_step (s : State) : Keeps s s.step.1 := by
  obtain ⟨same, -⟩ | ⟨i, -, -, -, ⟨fault, -, eq⟩ | ⟨-, eq, -⟩⟩ := s.step_cases
  · rw [same]
    exact .refl s
  · have kept := keeps_execute (s := s.ready) i
    rw [eq]
    exact ⟨kept.config, kept.size, kept.zero⟩
  · have kept := keeps_execute (s := s.ready) i
    rw [eq]
    exact ⟨kept.config, kept.size, kept.zero⟩

/-- Whether the next step carries out a call for a number of bytes. -/
structure Asks (s : State) (bytes : Int32) : Prop where
  /-- The machine is going. -/
  going : s.pc ≠ 0
  /-- The steps are not used up. -/
  unlimited : s.exhausted? = none
  /-- The instruction is a call to the host, -/
  fetched : s.fetch = .ok (.env .call)
  /-- namely the one that reserves memory, -/
  call : Syscall.ofNumber? (s.registers.get .a0).toInt = some .alloc
  /-- and this is how much. -/
  bytes : s.registers.get .a1 = bytes

/-- **What a step does to the heap**: nothing, or it takes a block from it that was asked for and
that fits. -/
theorem heap_step (s : State) : s.step.1.heap = s.heap
    ∨ ∃ bytes, s.Asks bytes ∧ ¬ s.Exceeds bytes ∧ s.step.1.heap = s.heapBehind bytes := by
  obtain ⟨same, -⟩ | ⟨i, going, unlimited, fetched, carried⟩ := s.step_cases
  · exact .inl (by rw [same])
  have eq : s.step.1.heap = (s.ready.execute i).1.heap := by
    obtain ⟨fault, -, eq⟩ | ⟨-, eq, -⟩ := carried
    · rw [eq]
    · rw [eq]
      rfl
  rw [eq]
  by_cases call : i = .env .call
  · subst call
    obtain same | ⟨alloc, fits, moved⟩ := s.ready.heap_hostCall
    · exact .inl same
    · exact .inr ⟨_, ⟨going, unlimited, fetched, alloc, rfl⟩, fits, moved⟩
  · exact .inl (execute_heap_steps call).1

/-- **A step that succeeds** finds the machine stopped, or leaves the stack pointer in its region and
is counted. -/
theorem step_eq_ok {going : Bool} (stepped : s.step.2 = .ok going) :
    (s.config.stackLimit : Int) ≤ (s.step.1.registers.get .sp).toInt
        ∧ s.step.1.steps = s.steps + 1
      ∨ s.pc = 0 ∧ going = false ∧ s.step.1 = s := by
  have config := (keeps_step s).config
  obtain ⟨same, stopped⟩ | ⟨i, -, -, -, ⟨fault, -, eq⟩ | ⟨-, eq, above⟩⟩ := s.step_cases
  · obtain ⟨stopped, rfl⟩ := stopped going stepped
    exact .inr ⟨stopped, rfl, same⟩
  · rw [eq] at stepped
    cases stepped
  · refine .inl ⟨config ▸ above going stepped, ?_⟩
    rw [eq]
    exact congrArg (· + 1) (s.ready.steps_execute i)

/-! ## The invariant -/

/-- What is true of every machine that comes of stepping one with a program loaded in it. -/
structure Sound (config : Config) (p : Program) (s : State) : Prop where
  /-- The parameters are those it was made to. -/
  made : s.config = config
  /-- Register zero is zero. -/
  zero : s.registers.get .zero = 0
  /-- The memory has the size that was asked for. -/
  size : s.memory.size = config.memorySize
  /-- The free heap starts at a whole word, -/
  aligned : 4 ∣ s.heap
  /-- behind the program -/
  above : loadAddress + p.imageSize ≤ s.heap
  /-- and not in the stack region. -/
  below : s.heap ≤ config.stackLimit

/-- The invariant holds after loading. -/
theorem sound_of_load {input : List UInt8} (loaded : load config p input = .ok s) :
    s.Sound config p := by
  obtain ⟨-, le, rfl⟩ := load_eq_ok loaded
  refine ⟨rfl, ?_, Memory.size_setBytes .., ?_, Nat.le_refl _, le⟩
  · rw [Registers.get_zero_set, Registers.get_zeros]
  · exact Nat.dvd_add (Nat.dvd_refl 4) (Nat.dvd_mul_left _ _)

/-- A block that fits ends below the stack. -/
theorem heapBehind_le {bytes : Int32} (fits : ¬ s.Exceeds bytes) :
    s.heapBehind bytes ≤ s.config.stackLimit :=
  Nat.not_lt.1 fun less => fits (.inr less)

theorem heap_le_heap_step (s : State) : s.heap ≤ s.step.1.heap := by
  obtain same | ⟨bytes, -, -, eq⟩ := s.heap_step
  · exact Nat.le_of_eq same.symm
  · rw [eq]
    exact Nat.le_trans (Nat.le_add_right ..) (le_heapBehind bytes)

/-- **A step keeps the invariant**, whatever comes of it. -/
theorem Sound.step (h : s.Sound config p) : s.step.1.Sound config p := by
  have kept := keeps_step s
  refine ⟨kept.config.trans h.made, kept.zero.trans h.zero, kept.size.trans h.size, ?_,
    Nat.le_trans h.above s.heap_le_heap_step, ?_⟩
  · obtain same | ⟨bytes, -, -, eq⟩ := s.heap_step
    · exact same ▸ h.aligned
    · exact eq ▸ dvd_heapBehind bytes
  · obtain same | ⟨bytes, -, fits, eq⟩ := s.heap_step
    · exact same ▸ h.below
    · exact eq ▸ h.made ▸ heapBehind_le fits

/-- The invariant holds after any number of steps. -/
theorem Sound.after (h : s.Sound config p) (n : Nat) : (s.after n).Sound config p := by
  induction n with
  | zero => exact h
  | succ n ih => exact ih.step

/-- The free heap only gets smaller. -/
theorem heap_after_le {m n : Nat} (le : m ≤ n) : (s.after m).heap ≤ (s.after n).heap := by
  induction le with
  | refl => exact Nat.le_refl _
  | step _ ih => exact Nat.le_trans ih (heap_le_heap_step _)

/-- As long as all steps succeed, the stack pointer is in its region. -/
theorem stack_of_succeeds (start : (s.config.stackLimit : Int) ≤ (s.registers.get .sp).toInt)
    (h : s.Sound config p) {n : Nat} (succeeds : ∀ m < n, ∃ going, (s.after m).step.2 = .ok going) :
    (config.stackLimit : Int) ≤ ((s.after n).registers.get .sp).toInt := by
  induction n with
  | zero => exact h.made ▸ start
  | succ n ih =>
    obtain ⟨going, stepped⟩ := succeeds n (Nat.lt_succ_self n)
    have config := (h.after n).made
    obtain ⟨above, -⟩ | ⟨-, -, same⟩ := step_eq_ok stepped
    · exact config ▸ above
    · rw [State.after, same]
      exact ih fun m less => succeeds m (Nat.lt_succ_of_lt less)

/-- The stack pointer starts at the top of the memory. -/
theorem stack_of_load {input : List UInt8} (loaded : load config p input = .ok s) :
    (s.config.stackLimit : Int) ≤ (s.registers.get .sp).toInt := by
  obtain ⟨valid, -, rfl⟩ := load_eq_ok loaded
  obtain ⟨size, -, -⟩ := memorySize_lt_of_validate valid
  rw [Registers.get_set_self (by decide), Int32.toInt_ofNat_of_lt size]
  exact Int.ofNat_le.2 (Nat.sub_le _ _)

/-- **What every run keeps**, from a machine with a program loaded in it: register zero reads as zero,
the memory keeps its size, and the free heap starts at a whole word between the program and the stack
region and only gets smaller. A step that succeeds leaves the stack pointer in its region and
is counted, or finds the machine stopped and changes nothing; if all steps succeed, the stack
pointer is in its region all the while. -/
theorem invariant_of_load {input : List UInt8} (loaded : load config p input = .ok s) (n : Nat) :
    (s.after n).readRegister .zero = 0
    ∧ (s.after n).memory.size = config.memorySize
    ∧ 4 ∣ (s.after n).heap
    ∧ 4 + p.image.length ≤ (s.after n).heap
    ∧ (s.after n).heap ≤ config.memorySize - config.stackSize
    ∧ (∀ m ≤ n, (s.after m).heap ≤ (s.after n).heap)
    ∧ (∀ going, (s.after n).step.2 = .ok going →
      ((config.memorySize - config.stackSize : Nat) : Int)
            ≤ ((s.after (n + 1)).registers.get .sp).toInt
          ∧ (s.after (n + 1)).steps = (s.after n).steps + 1
        ∨ (s.after n).pc = 0 ∧ going = false ∧ s.after (n + 1) = s.after n)
    ∧ ((∀ m < n, ∃ going, (s.after m).step.2 = .ok going) →
      ((config.memorySize - config.stackSize : Nat) : Int)
        ≤ ((s.after n).registers.get .sp).toInt) := by
  have start := sound_of_load loaded
  have sound := start.after n
  refine ⟨sound.zero, sound.size, sound.aligned, ?_, sound.below, fun m le => heap_after_le le,
    fun going stepped => ?_, stack_of_succeeds (stack_of_load loaded) start⟩
  · rw [Program.length_image]
    exact sound.above
  · have config := sound.made
    exact config ▸ step_eq_ok stepped

/-- A machine of sixteen words that loads the smallest program that stops. -/
theorem invariant_of_load_small : ∃ s,
    load ⟨64, 16, none⟩ ⟨[], [0x80200000]⟩ [] = .ok s
      ∧ ∀ n, (s.after n).readRegister .zero = 0 ∧ (s.after n).heap ≤ 48 := by
  obtain ⟨s, loaded⟩ : ∃ s, load ⟨64, 16, none⟩ ⟨[], [0x80200000]⟩ [] = .ok s := ⟨_, rfl⟩
  refine ⟨s, loaded, fun n => ?_⟩
  obtain ⟨zero, -, -, -, below, -⟩ := invariant_of_load loaded n
  exact ⟨zero, below⟩

end State

end Polyglot.Machine
