import Mathlib
import Polyglot.Proofs.Machine.Invariants

/-!
# Blocks of the heap

Memory is reserved by one call to the host and is never given back, so the whole heap is a number,
the start of what is free. **Two blocks of one run do not overlap** as this number never gets
smaller, and a block that was reserved lies below it from then on.

A block counts as reserved as soon as the call has answered (`State.Allocates`). The step around it
may still fail, if the stack pointer has left its region; the block is gone from the free heap
nevertheless, and the run may go on.

Whether a block fits is decided in whole words. The last word below the stack can be
reserved, and a call that fails changes nothing that a program can see (`State.step_of_asks`).
-/

namespace Polyglot.Machine

namespace State

variable {s : State} {config : Config} {p : Program} {input : List UInt8} {bytes : Int32} {a : Int}

/-- Whether the next step reserves a number of bytes at an address. -/
structure Allocates (s : State) (bytes : Int32) (a : Int) : Prop where
  /-- The step asks for the bytes, -/
  asks : s.Asks bytes
  /-- the call succeeds, -/
  succeeds : s.ready.hostCall.2 = .ok ()
  /-- and the result of it is the address. -/
  result : (s.step.1.registers.get .a0).toInt = a

/-- Whether the next step fails as there is not enough memory. -/
def RunsOut (s : State) : Prop :=
  ∃ requested available, s.step.2 = .error (.outOfMemory requested available)

/-! ## One block -/

/-- **A step that asks for memory** fails and changes no more than where the next instruction is, or it
takes the block from the free heap. -/
theorem step_of_asks (asks : s.Asks bytes) :
    s.Exceeds bytes ∧ s.ready.hostCall.2 ≠ .ok ()
        ∧ s.step = (s.ready, .error (.outOfMemory bytes ((s.config.stackLimit : Int) - s.heap)))
      ∨ ¬ s.Exceeds bytes ∧ s.ready.hostCall.2 = .ok () ∧ ¬ s.RunsOut
        ∧ s.step.1.heap = s.heapBehind bytes
        ∧ s.step.1.registers.get .a0 = Int32.ofNat s.heap := by
  obtain ⟨going, unlimited, fetched, call, rfl⟩ := asks
  obtain ⟨exceeds, eq⟩ | ⟨fits, eq⟩ := hostCall_alloc (s := s.ready) call
  · exact .inl ⟨exceeds, by rw [eq]; nofun, step_of_fault going unlimited fetched eq⟩
  · have stepped := step_of_fetch going unlimited fetched eq
    have answered : s.ready.hostCall.2 = .ok () := by rw [eq]
    refine .inr ⟨fits, answered, ?_⟩
    rw [RunsOut, stepped]
    -- The stack pointer may be out of its region by now; the block is reserved all the same.
    split
    · exact ⟨nofun, rfl, Registers.get_set_self (by decide)⟩
    · exact ⟨nofun, rfl, Registers.get_set_self (by decide)⟩

/-- Memory runs out exactly where the block does not fit. -/
theorem runsOut_iff (asks : s.Asks bytes) : s.RunsOut ↔ s.Exceeds bytes := by
  obtain ⟨exceeds, -, eq⟩ | ⟨fits, -, enough, -⟩ := step_of_asks asks
  · exact ⟨fun _ => exceeds, fun _ => ⟨_, _, congrArg Prod.snd eq⟩⟩
  · exact ⟨fun out => absurd out enough, fun exceeds => absurd exceeds fits⟩

/-- A step that runs out of memory leaves the heap and the registers alone. -/
theorem RunsOut.keeps (out : s.RunsOut) (asks : s.Asks bytes) :
    s.step.1.heap = s.heap ∧ s.step.1.registers = s.registers := by
  obtain ⟨-, -, eq⟩ | ⟨-, -, enough, -⟩ := step_of_asks asks
  · rw [eq]
    exact ⟨rfl, rfl⟩
  · exact absurd out enough

/-- A step that asks for memory and does not run out of it reserves a block. -/
theorem exists_allocates (asks : s.Asks bytes) (enough : ¬ s.RunsOut) : ∃ a, s.Allocates bytes a := by
  obtain ⟨exceeds, -⟩ | ⟨-, answered, -⟩ := step_of_asks asks
  · exact absurd ((runsOut_iff asks).2 exceeds) enough
  · exact ⟨_, asks, answered, rfl⟩

/-- **Where a block is**: at the start of the free heap, which starts behind it after the step. -/
theorem Allocates.places (h : s.Allocates bytes a) (sound : s.Sound config p)
    (size : config.memorySize < 0x80000000) :
    a = s.heap ∧ a + bytes.toInt ≤ s.step.1.heap := by
  obtain ⟨asks, succeeds, rfl⟩ := h
  obtain ⟨-, fails, -⟩ | ⟨-, -, -, moved, result⟩ := step_of_asks asks
  · exact absurd succeeds fails
  have below : s.heap < 0x80000000 :=
    Nat.lt_of_le_of_lt sound.below (Nat.lt_of_le_of_lt (Nat.sub_le _ _) size)
  have behind := s.le_heapBehind bytes
  rw [result, moved, Int32.toInt_ofNat_of_lt below]
  exact ⟨rfl, by omega⟩

/-! ## All blocks of a run -/

/-- A block that is reserved later starts behind the ones before. -/
theorem Allocates.le_of_lt {m n : Nat} {bytes' : Int32} {a' : Int} (start : s.Sound config p)
    (size : config.memorySize < 0x80000000) (first : (s.after m).Allocates bytes a)
    (second : (s.after n).Allocates bytes' a') (lt : m < n) : a + bytes.toInt ≤ a' := by
  obtain ⟨-, behind⟩ := first.places (start.after m) size
  obtain ⟨rfl, -⟩ := second.places (start.after n) size
  exact Int.le_trans behind (Int.ofNat_le.2 (heap_after_le (m := m + 1) lt))

/-- **The blocks of a run**, from a machine with a program loaded in it. Each starts at a whole word and
lies between the program and the stack region, and any two are disjoint. Memory runs out exactly
where less than nothing is asked for, or where the block does not fit below the stack region in
whole words; that leaves the heap and the registers as they are. In all other cases there is a
block. -/
theorem blocks_of_load (loaded : load config p input = .ok s) :
    (∀ n bytes a, (s.after n).Allocates bytes a →
      4 ∣ a ∧ 4 + p.image.length ≤ a ∧ a + bytes.toInt ≤ (config.memorySize - config.stackSize : Nat))
    ∧ (∀ m n bytes bytes' a a', m ≠ n → (s.after m).Allocates bytes a →
      (s.after n).Allocates bytes' a' →
      Disjoint (Set.Ico a (a + bytes.toInt)) (Set.Ico a' (a' + bytes'.toInt)))
    ∧ ∀ n bytes, (s.after n).Asks bytes →
      ((s.after n).RunsOut ↔ bytes < 0 ∨ config.memorySize - config.stackSize
        < ((s.after n).heap + bytes.toInt.toNat + 3) / 4 * 4)
      ∧ ((s.after n).RunsOut → (s.after (n + 1)).heap = (s.after n).heap
        ∧ (s.after (n + 1)).registers = (s.after n).registers)
      ∧ (¬ (s.after n).RunsOut → ∃ a, (s.after n).Allocates bytes a) := by
  have start := sound_of_load loaded
  obtain ⟨size, -, -⟩ := memorySize_lt_of_validate (load_eq_ok loaded).1
  refine ⟨fun n bytes a h => ?_, fun m n bytes bytes' a a' differ first second => ?_,
    fun n bytes asks => ⟨?_, fun out => out.keeps asks, exists_allocates asks⟩⟩
  · have sound := start.after n
    obtain ⟨rfl, behind⟩ := h.places sound size
    refine ⟨Int.ofNat_dvd.2 sound.aligned, ?_, ?_⟩
    · rw [Program.length_image]
      exact Int.ofNat_le.2 sound.above
    · exact Int.le_trans behind (Int.ofNat_le.2 sound.step.below)
  · rw [Set.Ico_disjoint_Ico]
    rcases Nat.lt_or_gt_of_ne differ with before | behind
    · exact (min_le_left _ _).trans ((first.le_of_lt start size second before).trans
        (le_max_right _ _))
    · exact (min_le_right _ _).trans ((second.le_of_lt start size first behind).trans
        (le_max_left _ _))
  · rw [runsOut_iff asks, Exceeds, (start.after n).made]
    rfl

/-- A program that asks for five bytes and then for two, and stops. -/
def reserving : Program where
  data := []
  code := ([.immediate .add .a0 .zero 4, .immediate .add .a1 .zero 5, .env .call,
    .immediate .add .a0 .zero 4, .immediate .add .a1 .zero 2, .env .call,
    .immediate .add .pc .zero 0] : List Instruction).filterMap (·.encode.toOption)

/-- A machine before the instruction of `reserving` with a number. -/
def reservingAt (n : Nat) (a0 a1 : Int32) (heap : Nat) : State where
  config := ⟨64, 16, none⟩
  registers := ((Registers.zeros.set .sp 64).set .a0 a0).set .a1 a1
  memory := (Memory.zeros 64).setBytes loadAddress reserving.image
  pc := Int32.ofNat (reserving.address n)
  nextPc := Int32.ofNat (reserving.address n)
  heap
  steps := n
  input := []
  output := #[]

theorem load_reserving : load ⟨64, 16, none⟩ reserving [] = .ok (reservingAt 0 0 0 32) := rfl

theorem reservingAt_fetch {n heap : Nat} {a0 a1 : Int32} {i : Instruction} (has : reserving.Has n i)
    (pc : (Int32.ofNat (reserving.address n)).toInt = reserving.address n) :
    (reservingAt n a0 a1 heap).fetch = .ok i := by
  have carries : (reservingAt 0 0 0 32).Carries reserving := carries_of_load load_reserving
  exact Carries.fetch (s := reservingAt n a0 a1 heap) carries has pc

theorem reservingAt_step {n heap : Nat} {a0 a1 : Int32} {i : Instruction} (has : reserving.Has n i)
    (pc : (Int32.ofNat (reserving.address n)).toInt = reserving.address n)
    (succeeds : ((reservingAt n a0 a1 heap).ready.execute i).2 = .ok ()) :
    (reservingAt n a0 a1 heap).step.1 = ((reservingAt n a0 a1 heap).ready.execute i).1.moved := by
  have going : (reservingAt n a0 a1 heap).pc ≠ 0 := by
    intro zero
    have zero : Int32.ofNat (reserving.address n) = 0 := zero
    have : reserving.address n = 4 + 4 * n := rfl
    rw [zero, Int32.toInt_zero] at pc
    omega
  exact step_fst_of_fetch going rfl (reservingAt_fetch has pc) (Prod.ext rfl succeeds)

/-- The five bytes take two words. -/
theorem blocks_of_load_reserving : ∃ s, load ⟨64, 16, none⟩ reserving [] = .ok s
    ∧ (s.after 2).Allocates 5 32 ∧ (s.after 5).Allocates 2 40
    ∧ Disjoint (Set.Ico (32 : Int) (32 + Int32.toInt 5)) (Set.Ico 40 (40 + Int32.toInt 2)) := by
  have second : (reservingAt 0 0 0 32).after 2 = reservingAt 2 4 5 32 := by
    rw [after, after, after, reservingAt_step (i := .immediate .add .a0 .zero 4) ⟨_, rfl, rfl⟩ rfl rfl]
    exact reservingAt_step (n := 1) (i := .immediate .add .a1 .zero 5) ⟨_, rfl, rfl⟩ rfl rfl
  have third : (reservingAt 2 4 5 32).step.1 = reservingAt 3 32 5 40 :=
    reservingAt_step (i := .env .call) ⟨_, rfl, rfl⟩ rfl rfl
  have fifth : (reservingAt 0 0 0 32).after 5 = reservingAt 5 4 2 40 := by
    rw [after, after, after, second, third,
      reservingAt_step (i := .immediate .add .a0 .zero 4) ⟨_, rfl, rfl⟩ rfl rfl]
    exact reservingAt_step (n := 4) (i := .immediate .add .a1 .zero 2) ⟨_, rfl, rfl⟩ rfl rfl
  have first : ((reservingAt 0 0 0 32).after 2).Allocates 5 32 := by
    rw [second]
    refine ⟨⟨by decide, rfl, reservingAt_fetch ⟨_, rfl, rfl⟩ rfl, rfl, rfl⟩, rfl, ?_⟩
    rw [third]
    rfl
  have other : ((reservingAt 0 0 0 32).after 5).Allocates 2 40 := by
    rw [fifth]
    refine ⟨⟨by decide, rfl, reservingAt_fetch ⟨_, rfl, rfl⟩ rfl, rfl, rfl⟩, rfl, ?_⟩
    rw [reservingAt_step (i := .env .call) ⟨_, rfl, rfl⟩ rfl rfl]
    rfl
  exact ⟨_, load_reserving, first, other,
    (blocks_of_load load_reserving).2.1 2 5 5 2 32 40 (by decide) first other⟩

end State

end Polyglot.Machine
