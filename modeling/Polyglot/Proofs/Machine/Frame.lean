import Polyglot.Proofs.Machine.Invariants

/-!
# What is written to memory

Only two things write to the memory, and each of them one stretch of bytes: a store writes a word,
and a call that reads writes a line with a zero behind it. What the next step writes can be told
before it is made (`State.write?`), and the step does this to the memory and nothing else
(`State.memory_step`).

So the memory of a machine on its way is told by what was written to it, one stretch after the
other: a byte is the one that was written there last (`State.byte_after`). Stretches may overlap each
other and the program as they like. A load sees the four bytes that stand where it looks
(`State.load_eq_lastWritten`).
-/

namespace Polyglot.Machine

/-- A stretch of bytes that is written to memory. -/
structure Write where
  /-- Where it starts. -/
  address : Nat
  /-- The bytes. -/
  bytes : List UInt8
  deriving DecidableEq, Repr

namespace Write

/-- The byte that is written at an address, if there is one. -/
def byte? (w : Write) (x : Nat) : Option UInt8 :=
  if w.address ≤ x then w.bytes[x - w.address]? else none

/-- The memory after the stretch was written. -/
def apply (m : Memory) (w : Write) : Memory := m.setBytes w.address w.bytes

/-- The byte that was written last at an address, if one was. Of the stretches the one that was
written last comes first. -/
def last? (ws : List Write) (x : Nat) : Option UInt8 := ws.findSome? (·.byte? x)

theorem byte_apply (m : Memory) (w : Write) (x : Nat) :
    (w.apply m).byte x = (w.byte? x).getD (m.byte x) := by
  rw [apply, Memory.byte_setBytes, byte?]
  split <;> rfl

end Write

namespace State

variable {s : State} {config : Config} {p : Program}

/-- What an instruction writes to memory, if it can. -/
def writeOf? (s : State) : Instruction → Option Write
  | .memory .store reg base offset =>
    (s.memory.range ((s.readRegister base).toInt + offset.toInt) 4).toOption.map fun address =>
      ⟨address, wordBytes (s.readRegister reg).toUInt32⟩
  | .env .call =>
    if Syscall.ofNumber? (s.registers.get .a0).toInt = some .read then
      let line := (cutLine s.input).1
      (s.memory.range (s.registers.get .a1).toInt (line.length + 1)).toOption.map fun address =>
        ⟨address, line ++ [0]⟩
    else none
  | _ => none

/-- What the next step writes to memory. -/
def write? (s : State) : Option Write :=
  if s.pc = 0 ∨ s.exhausted?.isSome then none else s.fetch.toOption.bind s.writeOf?

/-- The memory after something was written, if anything was. -/
def written (s : State) (w : Option Write) : Memory := w.elim s.memory (·.apply s.memory)

theorem memory_writeRegister (r : Register) (value : Int32) :
    (s.writeRegister r value).memory = s.memory := by
  unfold writeRegister
  split <;> rfl

theorem memory_hostCall : s.hostCall.1.memory = s.written (s.writeOf? (.env .call)) := by
  rw [writeOf?]
  by_cases call : Syscall.ofNumber? (s.registers.get .a0).toInt = some .read
  · unfold hostCall
    dsimp only
    rw [if_pos call, call]
    dsimp only
    cases s.memory.range (s.registers.get .a1).toInt ((cutLine s.input).1.length + 1) with
    | error => rfl
    | ok address => rfl
  · rw [if_neg call]
    unfold hostCall
    dsimp only
    split
    · rfl
    · split <;> rfl
    · exact absurd ‹_› call
    · split
      · rfl
      · split <;> rfl
    · rfl
    · split <;> rfl
    · rfl

/-- **An instruction** writes what it is said to write, and nothing else. -/
theorem memory_execute (i : Instruction) : (s.execute i).1.memory = s.written (s.writeOf? i) := by
  cases i with
  | branch op a b offset =>
    cases op <;> simp only [execute] <;> split <;> rfl
  | immediate op d a imm =>
    simp only [execute]
    split
    · rfl
    · exact memory_writeRegister _ _
  | operation op d a b =>
    simp only [execute]
    split
    · rfl
    · exact memory_writeRegister _ _
  | memory op r base offset =>
    cases op with
    | load =>
      simp only [execute]
      split
      · rfl
      · exact memory_writeRegister _ _
    | store =>
      simp only [execute, writeOf?]
      cases s.memory.range ((s.readRegister base).toInt + offset.toInt) 4 with
      | error => rfl
      | ok address => rfl
  | jump offset => rfl
  | env op =>
    cases op with
    | call => exact memory_hostCall
    | «break» => rfl

/-- **A step** writes what it is said to write, and nothing else, whatever comes of it. -/
theorem memory_step (s : State) : s.step.1.memory = s.written s.write? := by
  by_cases stopped : s.pc = 0
  · rw [step, write?, if_pos stopped, if_pos (.inl stopped)]
    rfl
  cases limit : s.exhausted? with
  | some n =>
    rw [write?, if_pos (.inr (by rw [limit]; rfl))]
    simp only [step, stopped, ↓reduceIte, limit]
    rfl
  | none =>
    rw [write?, if_neg (by rw [limit]; simpa using stopped)]
    cases fetched : s.fetch with
    | error e =>
      simp only [step, stopped, ↓reduceIte, limit, fetched]
      rfl
    | ok i =>
      have same : s.step.1.memory = (s.ready.execute i).1.memory := by
        rcases executed : s.ready.execute i with ⟨t, e | ⟨⟩⟩
        · rw [step_of_fault stopped limit fetched executed]
        · rw [step_fst_of_fetch stopped limit fetched executed]
          rfl
      rw [same, memory_execute]
      rfl

/-! ## Runs -/

/-- What the first steps write to memory, the last of it first. -/
def writes (s : State) : Nat → List Write
  | 0 => []
  | n + 1 => (s.after n).write?.toList ++ s.writes n

/-- **After any number of steps** a byte is the one that was written last, or the one that was there. -/
theorem byte_after (s : State) (n x : Nat) :
    (s.after n).memory.byte x = (Write.last? (s.writes n) x).getD (s.memory.byte x) := by
  induction n with
  | zero => rfl
  | succ n ih =>
    rw [after, memory_step, writes]
    cases (s.after n).write? with
    | none => exact ih
    | some w =>
      show (w.apply (s.after n).memory).byte x = (Write.last? (w :: s.writes n) x).getD _
      rw [Write.byte_apply, ih, Write.last?, Write.last?, List.findSome?_cons]
      cases w.byte? x <;> rfl

/-- The image of a program as something that is written. -/
def imageOf (p : Program) : Write := ⟨loadAddress, p.image⟩

/-- The byte that was last written at an address since the image was loaded, and the image with it.
The memory is zero where nothing was written. -/
def lastByte (s : State) (p : Program) (n x : Nat) : UInt8 :=
  (Write.last? (s.writes n ++ [imageOf p]) x).getD 0

/-- From a machine with a program loaded in it, a byte is the one that was written last. -/
theorem byte_after_of_load {input : List UInt8} (loaded : load config p input = .ok s) (n x : Nat) :
    (s.after n).memory.byte x = s.lastByte p n x := by
  rw [byte_after, lastByte, Write.last?, Write.last?, List.findSome?_append]
  have start : s.memory.byte x = ((imageOf p).byte? x).getD 0 := by
    obtain ⟨-, -, rfl⟩ := load_eq_ok loaded
    exact (Write.byte_apply (Memory.zeros _) (imageOf p) x).trans (by rw [Memory.byte_zeros])
  rw [start]
  cases (s.writes n).findSome? (·.byte? x) with
  | some b => rfl
  | none =>
    rw [List.findSome?_singleton]
    rfl

/-! ## Loads -/

/-- **A load that succeeds** reads the four bytes that stand where it looks. -/
theorem exists_of_load {reg base : Register} {offset : Int32} {going : Bool} (nonzero : reg ≠ .zero)
    (isGoing : s.pc ≠ 0) (fetched : s.fetch = .ok (.memory .load reg base offset))
    (stepped : s.step.2 = .ok going) :
    ∃ address : Nat, (address : Int) = (s.readRegister base).toInt + offset.toInt
      ∧ wordBytes (s.step.1.readRegister reg).toUInt32
        = (List.range 4).map fun i => s.memory.byte (address + i) := by
  obtain ⟨-, stopped⟩ | ⟨i, -, -, fetched', ⟨fault, -, eq⟩ | ⟨executed, eq, -⟩⟩ := s.step_cases
  · exact absurd (stopped going stepped).1 isGoing
  · rw [eq] at stepped
    cases stepped
  obtain rfl := Except.ok.inj (fetched.symm.trans fetched')
  have base_eq : s.ready.readRegister base = s.readRegister base := rfl
  have memory_eq : s.ready.memory = s.memory := rfl
  rw [eq]
  simp only [execute, base_eq, memory_eq] at executed ⊢
  cases read : s.memory.readWord ((s.readRegister base).toInt + offset.toInt) with
  | error e =>
    rw [read] at executed
    cases executed
  | ok word =>
    obtain ⟨address, range, rfl⟩ := Except.map_eq_ok.1 read
    dsimp only
    rw [readRegister_moved_writeRegister nonzero, UInt32.toUInt32_toInt32, wordBytes_wordOfBytes]
    refine ⟨address, ?_, rfl⟩
    unfold Memory.range at range
    split at range
    · cases range
    · obtain rfl := Except.ok.inj range
      omega

/-- **What a program finds in memory.** From a machine with a program loaded in it, each step changes no
byte but those of the stretch it writes; so every byte is the one that was written there last since
the program was loaded; and what a load finds at any address, aligned or not, are the last four. -/
theorem frame_of_load {input : List UInt8} (loaded : load config p input = .ok s) (n : Nat) :
    (∀ x, (s.after (n + 1)).memory.byte x
      = ((s.after n).write?.bind (·.byte? x)).getD ((s.after n).memory.byte x))
    ∧ (∀ x, (s.after n).memory.byte x = s.lastByte p n x)
    ∧ ∀ reg base offset going, reg ≠ .zero → (s.after n).pc ≠ 0 →
      (s.after n).fetch = .ok (.memory .load reg base offset) → (s.after n).step.2 = .ok going →
      ∃ address : Nat, (address : Int) = ((s.after n).readRegister base).toInt + offset.toInt
        ∧ wordBytes ((s.after (n + 1)).readRegister reg).toUInt32
          = (List.range 4).map fun i => s.lastByte p n (address + i) := by
  refine ⟨fun x => ?_, byte_after_of_load loaded n, ?_⟩
  · rw [after, memory_step]
    cases (s.after n).write? with
    | none => rfl
    | some w => exact w.byte_apply _ x
  · intro reg base offset going nonzero isGoing fetched stepped
    obtain ⟨address, eq, bytes⟩ := exists_of_load nonzero isGoing fetched stepped
    refine ⟨address, eq, bytes.trans ?_⟩
    simp only [byte_after_of_load loaded]

/-- A program that loads the last three bytes of its data together with the first one of its code. -/
def askew : Program where
  data := [0x04030201]
  code := ([.memory .load .a0 .zero 5] : List Instruction).filterMap (·.encode.toOption)

/-- The machine that is ready to run it. -/
def askewAt : State where
  config := ⟨64, 16, none⟩
  registers := Registers.zeros.set .sp 64
  memory := (Memory.zeros 64).setBytes loadAddress askew.image
  pc := Int32.ofNat (askew.address 0)
  nextPc := Int32.ofNat (askew.address 0)
  heap := 12
  steps := 0
  input := []
  output := #[]

/-- What is loaded are the bytes of the image. -/
theorem frame_of_load_askew : load ⟨64, 16, none⟩ askew [] = .ok askewAt
    ∧ wordBytes ((askewAt.after 1).readRegister .a0).toUInt32 = [2, 3, 4, 5] := by
  have loaded : load ⟨64, 16, none⟩ askew [] = .ok askewAt := rfl
  have carries := carries_of_load loaded
  have fetched : askewAt.fetch = .ok (.memory .load .a0 .zero 5) := 
    carries.fetch (n := 0) ⟨_, rfl, rfl⟩ rfl
  have word : askewAt.memory.readWord 5 = .ok 0x05040302 := (carries.drop_take 1 4 (by decide)).readWord
  have executed : askewAt.ready.execute (.memory .load .a0 .zero 5)
      = (askewAt.ready.writeRegister .a0 (0x05040302 : UInt32).toInt32, .ok ()) := by
    have read : askewAt.ready.memory.readWord
        ((askewAt.ready.readRegister .zero).toInt + (5 : Int32).toInt) = .ok 0x05040302 := word
    simp only [execute, read]
  have stepped := step_of_fetch (by decide) rfl fetched executed
  obtain ⟨address, eq, bytes⟩ :=
    (frame_of_load loaded 0).2.2 .a0 .zero 5 true (by decide) (by decide) fetched (by rw [after, stepped]; rfl)
  obtain rfl : address = 5 := Int.ofNat_inj.1 eq
  exact ⟨loaded, bytes⟩

end State

end Polyglot.Machine
