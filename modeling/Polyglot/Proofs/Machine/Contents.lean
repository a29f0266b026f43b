import Polyglot.Machine.State
import Polyglot.Proofs.Machine.Codec
import Polyglot.Proofs.Success

/-!
# What stands in memory

A memory *holds* bytes at an address if they stand there and all of them are in
the memory (`Memory.Holds`). This is how a loaded program is spoken of: the machine
*carries* a program if its memory holds the image of the program at the load
address (`State.Carries`). A machine that was just loaded does
(`State.carries_of_load`), and as long as it does, it fetches the instructions
whose words stand in the code (`State.Carries.fetch`).

Bytes that are held at one place stay when others are written at a place that does
not meet it (`Memory.Holds.setBytes_of_disjoint`), so a machine that only writes
above the image of its program goes on carrying it.
-/

namespace Polyglot.Machine

/-! ## Words and their bytes -/

@[simp] theorem length_wordBytes (word : UInt32) : (wordBytes word).length = 4 := rfl

/-- A word is made of its bytes again. -/
theorem wordOfBytes_wordBytes (word : UInt32) :
    wordOfBytes (UInt8.ofNat word.toNat) (UInt8.ofNat (word.toNat >>> 8))
      (UInt8.ofNat (word.toNat >>> 16)) (UInt8.ofNat (word.toNat >>> 24)) = word := by
  have lt : word.toNat < 4294967296 := word.toNat_lt
  refine UInt32.toNat_inj.1 ?_
  simp only [wordOfBytes, UInt8.toNat_ofNat', UInt32.toNat_ofNat', Nat.shiftLeft_eq,
    Nat.shiftRight_eq_div_pow, Nat.reducePow]
  omega

/-- Bytes are those of the word they make. -/
theorem wordBytes_wordOfBytes (b₀ b₁ b₂ b₃ : UInt8) :
    wordBytes (wordOfBytes b₀ b₁ b₂ b₃) = [b₀, b₁, b₂, b₃] := by
  have := b₀.toNat_lt
  have := b₁.toNat_lt
  have := b₂.toNat_lt
  have := b₃.toNat_lt
  simp only [wordBytes, wordOfBytes, List.cons.injEq, and_true, ← UInt8.toNat_inj,
    UInt8.toNat_ofNat', UInt32.toNat_ofNat', Nat.shiftLeft_eq, Nat.shiftRight_eq_div_pow,
    Nat.reducePow]
  omega

namespace Memory

/-- Whether bytes stand at an address. -/
structure Holds (m : Memory) (address : Nat) (bytes : List UInt8) : Prop where
  /-- All of them are in the memory. -/
  fits : address + bytes.length ≤ m.size
  /-- Each of them is where it should be. -/
  byte_eq : ∀ i (lt : i < bytes.length), m.byte (address + i) = bytes[i]

/-- A byte is the one that was written there, if one was. -/
theorem byte_setBytes (m : Memory) (a : Nat) (bs : List UInt8) (x : Nat) :
    (m.setBytes a bs).byte x = if a ≤ x then bs[x - a]?.getD (m.byte x) else m.byte x := by
  induction bs generalizing m a with
  | nil => simp [setBytes]
  | cons b bs ih =>
    rw [setBytes, ih, byte_setByte]
    rcases Nat.lt_trichotomy x a with less | rfl | more
    · rw [if_neg (by omega), if_neg (by omega), if_neg (by omega)]
    · rw [if_neg (by omega), if_pos rfl, if_pos (Nat.le_refl _)]
      simp
    · obtain ⟨d, rfl⟩ : ∃ d, x = a + 1 + d := ⟨x - (a + 1), by omega⟩
      rw [if_pos (by omega), if_neg (by omega), if_pos (by omega)]
      rw [show a + 1 + d - (a + 1) = d by omega, show a + 1 + d - a = d + 1 by omega]
      simp

/-- Bytes that were written are held. -/
theorem holds_setBytes {m : Memory} {a : Nat} {bs : List UInt8} (fits : a + bs.length ≤ m.size) :
    (m.setBytes a bs).Holds a bs where
  fits := by simpa using fits
  byte_eq i lt := by
    rw [byte_setBytes, if_pos (Nat.le_add_right _ _), Nat.add_sub_cancel_left,
      List.getElem?_eq_getElem lt, Option.getD_some]

namespace Holds

variable {m : Memory} {a : Nat} {bs cs : List UInt8}

/-- Writing somewhere else changes nothing. -/
theorem setBytes_of_disjoint (h : m.Holds a bs) {a' : Nat}
    (disjoint : a + bs.length ≤ a' ∨ a' + cs.length ≤ a) : (m.setBytes a' cs).Holds a bs where
  fits := by simpa using h.fits
  byte_eq i lt := by
    rw [byte_setBytes, ← h.byte_eq i lt]
    rcases disjoint with before | behind
    · rw [if_neg (by omega)]
    · split
      · rw [List.getElem?_eq_none (by omega), Option.getD_none]
      · rfl

/-- A stretch of what is held is held. -/
theorem drop_take (h : m.Holds a bs) (start length : Nat) (le : start + length ≤ bs.length) :
    m.Holds (a + start) ((bs.drop start).take length) where
  fits := by
    have := h.fits
    simp only [List.length_take, List.length_drop]
    omega
  byte_eq i lt := by
    simp only [List.length_take, List.length_drop] at lt
    rw [Nat.add_assoc, h.byte_eq (start + i) (by omega)]
    simp

/-- Where the bytes of a word stand, the word is read. -/
theorem readWord {word : UInt32} (h : m.Holds a (wordBytes word)) : m.readWord a = .ok word := by
  have fits : a + 4 ≤ m.size := h.fits
  have range : m.range a 4 = .ok a := by
    rw [Memory.range, if_neg (by omega), Int.toNat_natCast]
  have byte : ∀ i (lt : i < 4), m.byte (a + i) = (wordBytes word).get ⟨i, lt⟩ := h.byte_eq
  have first : m.byte a = UInt8.ofNat word.toNat := byte 0 (by decide)
  have second : m.byte (a + 1) = UInt8.ofNat (word.toNat >>> 8) := byte 1 (by decide)
  have third : m.byte (a + 2) = UInt8.ofNat (word.toNat >>> 16) := byte 2 (by decide)
  have fourth : m.byte (a + 3) = UInt8.ofNat (word.toNat >>> 24) := byte 3 (by decide)
  rw [Memory.readWord, range]
  show Except.ok (wordOfBytes (m.byte a) (m.byte (a + 1)) (m.byte (a + 2)) (m.byte (a + 3))) = _
  rw [first, second, third, fourth, wordOfBytes_wordBytes]

end Holds

end Memory

/-! ## Programs in memory -/

/-- Where one of the words of a row stands among their bytes. -/
theorem flatMap_wordBytes_at (words : List UInt32) {i : Nat} {word : UInt32}
    (there : words[i]? = some word) :
    4 * i + 4 ≤ (words.flatMap wordBytes).length
      ∧ ((words.flatMap wordBytes).drop (4 * i)).take 4 = wordBytes word := by
  induction words generalizing i with
  | nil => simp at there
  | cons w ws ih =>
    rcases i with _ | i
    · simp only [List.getElem?_cons_zero, Option.some.injEq] at there
      subst there
      exact ⟨by simp, List.take_left' (length_wordBytes w)⟩
    · obtain ⟨le, eq⟩ := ih (by simpa using there)
      refine ⟨by simp only [List.flatMap_cons, List.length_append, length_wordBytes]; omega, ?_⟩
      rw [← eq, List.flatMap_cons, Nat.mul_succ, Nat.add_comm, ← List.drop_drop,
        List.drop_left' (length_wordBytes w)]

theorem length_flatMap_wordBytes (words : List UInt32) :
    (words.flatMap wordBytes).length = 4 * words.length := by
  induction words with
  | nil => rfl
  | cons w ws ih => simp [ih, Nat.mul_add, Nat.add_comm]

@[simp] theorem Program.length_image (p : Program) : p.image.length = p.imageSize := by
  rw [image, length_flatMap_wordBytes, imageSize, List.length_append, Nat.mul_comm]

/-- The code starts behind the data and ends with the image. -/
theorem Program.entryPoint_add (p : Program) :
    p.entryPoint + 4 * p.code.length = loadAddress + p.imageSize := by
  unfold entryPoint imageSize dataSize
  omega

/-- The address of the instruction of a program with a number. -/
def Program.address (p : Program) (i : Nat) : Nat := p.entryPoint + 4 * i

/-- The bytes of a word of code among those of the image. -/
theorem Program.image_at (p : Program) {i : Nat} {word : UInt32} (there : p.code[i]? = some word) :
    p.dataSize + 4 * i + 4 ≤ p.image.length
      ∧ (p.image.drop (p.dataSize + 4 * i)).take 4 = wordBytes word := by
  have there' : (p.data ++ p.code)[p.data.length + i]? = some word := by
    rw [List.getElem?_append_right (Nat.le_add_right _ _), Nat.add_sub_cancel_left, there]
  have eq : p.dataSize + 4 * i = 4 * (p.data.length + i) := by
    unfold dataSize
    omega
  rw [eq]
  exact flatMap_wordBytes_at (p.data ++ p.code) there'

/-- Whether an instruction is the one with a number in the code of a program. -/
def Program.Has (p : Program) (n : Nat) (i : Instruction) : Prop :=
  ∃ word, p.code[n]? = some word ∧ i.encode = .ok word

namespace State

/-- Whether the image of a program stands in memory where it is loaded. -/
def Carries (s : State) (p : Program) : Prop :=
  s.memory.Holds loadAddress p.image

variable {s : State} {p : Program}

/-- A program that fits below the stack fits into the memory. -/
theorem range_image {config : Config} (le : loadAddress + p.imageSize ≤ config.stackLimit) :
    (Memory.zeros config.memorySize).range (loadAddress : Nat) p.image.length = .ok loadAddress := by
  have fits : loadAddress + p.image.length ≤ config.memorySize := by
    rw [Program.length_image]
    exact Nat.le_trans le (Nat.sub_le _ _)
  rw [Memory.range, if_neg (by simp only [Memory.zeros]; omega), Int.toNat_natCast]

/-- What is known of a machine that was just loaded. -/
theorem load_eq_ok {config : Config} {input : List UInt8}
    (loaded : load config p input = .ok s) :
    config.validate = .ok () ∧ loadAddress + p.imageSize ≤ config.stackLimit
      ∧ s = {
          config
          registers := Registers.zeros.set .sp (Int32.ofNat config.memorySize)
          memory := (Memory.zeros config.memorySize).setBytes loadAddress p.image
          pc := Int32.ofNat p.entryPoint
          nextPc := Int32.ofNat p.entryPoint
          heap := loadAddress + p.imageSize
          steps := 0
          input
          output := #[] } := by
  obtain ⟨⟨⟩, valid, loaded⟩ := Except.bind_eq_ok.1 loaded
  refine ⟨valid, ?_⟩
  by_cases tooBig : loadAddress + p.imageSize > config.stackLimit
  · simp [tooBig, throw, throwThe, MonadExceptOf.throw, bind, Except.bind] at loaded
  have le := Nat.not_lt.1 tooBig
  simp only [tooBig, ↓reduceIte, Memory.writeBytes, range_image le, bind, Except.bind, pure,
    Except.pure, Except.ok.injEq] at loaded
  exact ⟨le, loaded.symm⟩

/-- The memory of a configuration that is in order has fewer than `2 ^ 31` bytes. -/
theorem memorySize_lt_of_validate {config : Config} (valid : config.validate = .ok ()) :
    config.memorySize < 0x80000000 ∧ config.memorySize % 4 = 0
      ∧ config.stackSize < config.memorySize := by
  unfold Config.validate at valid
  split at valid
  · cases valid
  split at valid
  · cases valid
  rename_i size stack
  have : Text.bitRange 31 = 0x80000000 := by decide
  omega

/-- A machine that was just loaded carries its program. -/
theorem carries_of_load {config : Config} {input : List UInt8}
    (loaded : load config p input = .ok s) : s.Carries p := by
  obtain ⟨-, le, rfl⟩ := load_eq_ok loaded
  refine Memory.holds_setBytes ?_
  rw [Program.length_image]
  exact Nat.le_trans le (Nat.sub_le _ _)

/-- A machine that carries a program reads the words of its code. -/
theorem Carries.readWord (h : s.Carries p) {i : Nat} {word : UInt32}
    (there : p.code[i]? = some word) : s.memory.readWord (p.address i : Nat) = .ok word := by
  obtain ⟨le, eq⟩ := p.image_at there
  have held := Memory.Holds.drop_take h (p.dataSize + 4 * i) 4 le
  rw [eq] at held
  have : loadAddress + (p.dataSize + 4 * i) = p.address i := by
    unfold Program.address Program.entryPoint
    omega
  exact (this ▸ held).readWord

/-- **A machine that carries a program fetches its instructions.** -/
theorem Carries.fetch (h : s.Carries p) {n : Nat} {i : Instruction} (has : p.Has n i)
    (pc : s.pc.toInt = p.address n) : s.fetch = .ok i := by
  obtain ⟨word, there, encoded⟩ := has
  simp only [State.fetch, pc, h.readWord there, Instruction.decode_encode encoded, bind,
    Except.bind, pure, Except.pure]

end State

end Polyglot.Machine
