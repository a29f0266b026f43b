import Mathlib.Algebra.Order.Ring.Int
import Mathlib.Data.Nat.Bits
import Polyglot.Proofs.Machine.Codec

/-!
# Instructions of words

An instruction has a word unless its signed field holds a number that the field is not
written with, and the word is read as the instruction. A word that is read as an instruction is the
word of the instruction, except for two things: the bits that its kind does not use are lost, and
a signed field may hold the one negative number that is read but never written
(`Instruction.encode_of_decode`). What is read as no instruction starts with six ones, or names
an operation that does not exist (`Instruction.decode_eq_error`).

The number of a word that starts with so many ones is at least the number of the word
that has them and then zeros only, so the kinds can be told apart by comparing numbers
(`startsWithOnes_iff`).
-/

namespace Polyglot.Machine

/-! ## Signed fields -/

namespace Field

variable {field : Field} {value : Int32} {word : Nat}

/-- Half of the values of a field are negative. -/
theorem size_eq (field : Field) : field.size = 2 * 2 ^ (field.bits - 1) := by
  cases field <;> rfl

theorem fits_iff {value : Int} {bits : Nat} :
    fits value bits ↔ -2 ^ (bits - 1) < value ∧ value < 2 ^ (bits - 1) := by
  have range : (Text.bitRange (bits - 1) : Int) = 2 ^ (bits - 1) := by
    simp [Text.bitRange, Nat.shiftLeft_eq]
  rw [fits, decide_eq_true_iff, ← range]
  omega

/-- A value is written just if it lies between the bounds of the field. -/
theorem exists_write_iff : (∃ low, field.write value = .ok low)
    ↔ -2 ^ (field.bits - 1) < value.toInt ∧ value.toInt < 2 ^ (field.bits - 1) := by
  rw [← fits_iff, write]
  by_cases fit : fits value.toInt field.bits
  · simp [fit]
  · simp [fit]

/-- The value of a field as a number: the upper half of what the bits can be is negative. -/
theorem toInt_read (field : Field) (word : Nat) : (field.read word).toInt
    = if word % field.size < field.size / 2 then (word % field.size : Int)
      else word % field.size - field.size := by
  have lt : word % field.size < field.size := Nat.mod_lt _ (by cases field <;> decide)
  have small : field.size ≤ 2 ^ 27 := by cases field <;> decide
  rw [read, Int32.toInt_ofInt, Int.bmod_eq_of_le]
  · push_cast
    rfl
  · show -0x80000000 ≤ _
    split <;> omega
  · show _ < 0x80000000
    split <;> omega

/-- **What is read is written again**, except for the number that has no counterpart. -/
theorem write_read (field : Field) (word : Nat) :
    field.write (field.read word) = .ok (word % field.size)
      ∨ (field.read word).toInt = -2 ^ (field.bits - 1)
        ∧ field.write (field.read word)
          = .error (.outOfRange field (field.read word).toInt field.bits) := by
  have value := field.toInt_read word
  have size := field.size_eq
  have lt : word % field.size < field.size := Nat.mod_lt _ (by cases field <;> decide)
  by_cases least : (field.read word).toInt = -2 ^ (field.bits - 1)
  · have unfit : ¬ fits (field.read word).toInt field.bits := fun fit =>
      Int.ne_of_gt (fits_iff.1 fit).1 least
    exact .inr ⟨least, if_neg unfit⟩
  · have half : ((2 ^ (field.bits - 1) : Nat) : Int) = 2 ^ (field.bits - 1) := by push_cast; rfl
    have fit : fits (field.read word).toInt field.bits := by
      rw [fits_iff, ← half]
      rw [← half] at least
      split at value <;> omega
    have low : ((field.read word).toInt % field.size).toNat = word % field.size := by
      rw [value]
      split
      · rw [← Int.natCast_emod, Int.emod_eq_of_lt (by omega) (by omega)]
        omega
      · rw [Int.sub_emod_right, Int.emod_emod, ← Int.natCast_emod]
        omega
    exact .inl (by rw [write, if_pos fit, low])

end Field

/-! ## Operations -/

/-- The operations have the codes up to fourteen. -/
theorem AluOp.ofCode?_eq_none_iff {n : Nat} : ofCode? n = none ↔ 15 ≤ n :=
  List.getElem?_eq_none_iff

theorem AluOp.code_of_ofCode? {n : Nat} {op : AluOp} (found : ofCode? n = some op) :
    op.code = n := by
  have each : ∀ n : Fin 15, (ofCode? n).map code = some n.val := by decide
  have lt : n < 15 := Nat.lt_of_not_le fun le => by
    rw [ofCode?_eq_none_iff.2 le] at found
    cases found
  have here := each ⟨n, lt⟩
  rw [found] at here
  exact Option.some.inj here

theorem BranchOp.code_read (n : Nat) : (if n % 2 = 0 then BranchOp.beq else .bne).code = n % 2 := by
  split <;> simp only [BranchOp.code] <;> omega

theorem MemoryOp.code_read (n : Nat) : (if n % 2 = 0 then MemoryOp.load else .store).code = n % 2 := by
  split <;> simp only [MemoryOp.code] <;> omega

theorem EnvOp.code_read (n : Nat) : (if n % 2 = 0 then EnvOp.call else .break).code = n % 2 := by
  split <;> simp only [EnvOp.code] <;> omega

/-! ## Ones at the start of a word -/

/-- Whether the highest bits of a word are ones. -/
def StartsWithOnes (word : UInt32) (count : Nat) : Prop :=
  ∀ i < count, word.toBitVec.getMsbD i = true

/-- The highest bits of a word are ones just if its number is one of the largest. -/
theorem startsWithOnes_iff {word : UInt32} {count : Nat} (le : count ≤ 32) :
    StartsWithOnes word count ↔ word.toNat / 2 ^ (32 - count) = 2 ^ count - 1 := by
  have bit {i : Nat} (lt : i < 32) :
      word.toBitVec.getMsbD i = word.toNat.testBit (31 - i) := by
    rw [BitVec.getMsbD_eq_getLsbD, decide_eq_true lt, Bool.true_and]
    rfl
  rw [← Nat.shiftRight_eq_div_pow]
  constructor
  · intro ones
    refine Nat.eq_of_testBit_eq fun j => ?_
    rw [Nat.testBit_shiftRight, Nat.testBit_two_pow_sub_one]
    by_cases lt : j < count
    · have one := ones (count - 1 - j) (by omega)
      rw [bit (by omega)] at one
      rw [decide_eq_true lt, ← one]
      congr 1
      omega
    · rw [decide_eq_false lt]
      refine Nat.testBit_lt_two_pow (Nat.lt_of_lt_of_le word.toNat_lt ?_)
      exact Nat.pow_le_pow_right (by decide) (by omega)
  · intro eq i lt
    have one := congrArg (·.testBit (count - 1 - i)) eq
    simp only [Nat.testBit_shiftRight, Nat.testBit_two_pow_sub_one] at one
    rw [decide_eq_true (show count - 1 - i < count by omega)] at one
    rw [bit (by omega), ← one]
    congr 1
    omega

namespace Instruction

/-! ## Instructions -/

/-- The signed field of an instruction, and what it holds. -/
def signed? : Instruction → Option (Field × Int32)
  | branch _ _ _ offset => some (.branchOffset, offset)
  | immediate _ _ _ imm => some (.immediate, imm)
  | memory _ _ _ offset => some (.memoryOffset, offset)
  | jump offset => some (.jumpOffset, offset)
  | operation .. | env _ => none

/-- How many bits at the end of the word an instruction does not use. -/
def padding : Instruction → Nat
  | operation .. => 9
  | env _ => 25
  | _ => 0

/-- A word without the bits that an instruction does not use. -/
def cleared (i : Instruction) (word : UInt32) : UInt32 :=
  UInt32.ofNat (word.toNat / 2 ^ i.padding * 2 ^ i.padding)

/-- An instruction with a signed field has a word just if the field is written. -/
theorem exists_encode_of_signed {i : Instruction} {field : Field} {value : Int32}
    {number : Nat → Nat} (eq : i.encodeNat = do let low ← field.write value; return number low) :
    (∃ word, i.encode = .ok word) ↔ ∃ low, field.write value = .ok low := by
  rw [encode, eq]
  cases field.write value with
  | ok low => exact ⟨fun _ => ⟨low, rfl⟩, fun _ => ⟨_, rfl⟩⟩
  | error e =>
    constructor
    · rintro ⟨_, encoded⟩
      cases encoded
    · rintro ⟨_, written⟩
      cases written

/-- **An instruction has a word** just if what its signed field holds, if it has one, lies
between the bounds of the field. -/
theorem exists_encode_iff (i : Instruction) : (∃ word, i.encode = .ok word)
    ↔ ∀ field value, i.signed? = some (field, value) →
      -2 ^ (field.bits - 1) < value.toInt ∧ value.toInt < 2 ^ (field.bits - 1) := by
  have signed {field : Field} {value : Int32} {number : Nat → Nat}
      (is : i.signed? = some (field, value))
      (eq : i.encodeNat = do let low ← field.write value; return number low) :
      (∃ word, i.encode = .ok word) ↔ ∀ field value, i.signed? = some (field, value) →
        -2 ^ (field.bits - 1) < value.toInt ∧ value.toInt < 2 ^ (field.bits - 1) := by
    rw [exists_encode_of_signed eq, Field.exists_write_iff, is]
    constructor
    · rintro bounds _ _ ⟨⟩
      exact bounds
    · exact fun bounds => bounds _ _ rfl
  cases i with
  | branch op src1 src2 offset => exact signed rfl rfl
  | immediate op dst src imm => exact signed rfl rfl
  | memory op reg base offset => exact signed rfl rfl
  | jump offset => exact signed rfl rfl
  | operation op dst src1 src2 => exact ⟨fun _ => nofun, fun _ => ⟨_, rfl⟩⟩
  | env op => exact ⟨fun _ => nofun, fun _ => ⟨_, rfl⟩⟩

/-! ## Instructions of words -/

/-- An instruction whose field was read from a word has that word, if the other parts of
the word are its own too. -/
theorem encode_of_read {i : Instruction} {word : UInt32} {field : Field} {number : Nat → Nat}
    (is : i.signed? = some (field, field.read word.toNat))
    (eq : i.encodeNat = do let low ← field.write (field.read word.toNat); return number low)
    (whole : number (word.toNat % field.size) = word.toNat) :
    (∃ field value, i.signed? = some (field, value) ∧ value.toInt = -2 ^ (field.bits - 1)
        ∧ i.encode = .error (.outOfRange field value.toInt field.bits))
      ∨ i.encode = .ok word := by
  rcases field.write_read word.toNat with written | ⟨least, written⟩
  · refine .inr ?_
    rw [encode, eq, written]
    show Except.ok (UInt32.ofNat (number _)) = _
    rw [whole, UInt32.ofNat_toNat]
  · refine .inl ⟨field, _, is, least, ?_⟩
    rw [encode, eq, written]
    rfl

/-- **The instruction of a word** has that word, up to the bits that it does not use, unless
its signed field holds the one number that is read but never written. -/
theorem encode_of_decode {word : UInt32} {i : Instruction} (decoded : decode word = .ok i) :
    (∃ field value, i.signed? = some (field, value) ∧ value.toInt = -2 ^ (field.bits - 1)
        ∧ i.encode = .error (.outOfRange field value.toInt field.bits))
      ∨ i.encode = .ok (i.cleared word) := by
  have lt : word.toNat < 0x100000000 := word.toNat_lt
  have full {i : Instruction} (full : i.padding = 0) : i.cleared word = word := by
    rw [cleared, full, Nat.pow_zero, Nat.div_one, Nat.mul_one, UInt32.ofNat_toNat]
  -- the formats in the order in which they are tried
  unfold decode at decoded
  dsimp only at decoded
  split at decoded
  · -- a branch
    obtain rfl := Except.ok.inj decoded
    rw [full rfl]
    refine encode_of_read rfl rfl ?_
    rw [BranchOp.code_read]
    simp only [registerAt, Field.size, Field.bits, Text.bitRange, Nat.shiftLeft_eq,
      Nat.shiftRight_eq_div_pow, Nat.reducePow, Nat.one_mul]
    omega
  split at decoded
  · -- an operation with a number
    split at decoded
    · cases decoded
    · rename_i op found
      obtain rfl := Except.ok.inj decoded
      rw [full rfl]
      refine encode_of_read rfl rfl ?_
      rw [AluOp.code_of_ofCode? found]
      simp only [registerAt, Field.size, Field.bits, Text.bitRange, Nat.shiftLeft_eq,
        Nat.shiftRight_eq_div_pow, Nat.reducePow, Nat.one_mul]
      omega
  split at decoded
  · -- an access to memory
    obtain rfl := Except.ok.inj decoded
    rw [full rfl]
    refine encode_of_read rfl rfl ?_
    rw [MemoryOp.code_read]
    simp only [registerAt, Field.size, Field.bits, Text.bitRange, Nat.shiftLeft_eq,
      Nat.shiftRight_eq_div_pow, Nat.reducePow, Nat.one_mul]
    omega
  split at decoded
  · -- an operation with two registers, after which bits are left over
    split at decoded
    · cases decoded
    · rename_i op found
      obtain rfl := Except.ok.inj decoded
      refine .inr (congrArg (fun n => Except.ok (UInt32.ofNat n)) ?_)
      rw [AluOp.code_of_ofCode? found]
      simp only [registerAt, padding, Nat.shiftLeft_eq, Nat.shiftRight_eq_div_pow, Nat.reducePow]
      omega
  split at decoded
  · -- a jump
    obtain rfl := Except.ok.inj decoded
    rw [full rfl]
    refine encode_of_read rfl rfl ?_
    simp only [Field.size, Field.bits, Text.bitRange, Nat.shiftLeft_eq, Nat.reducePow, Nat.one_mul]
    omega
  split at decoded
  · -- a call of the host, after which bits are left over
    obtain rfl := Except.ok.inj decoded
    refine .inr (congrArg (fun n => Except.ok (UInt32.ofNat n)) ?_)
    rw [EnvOp.code_read]
    simp only [padding, Nat.shiftLeft_eq, Nat.shiftRight_eq_div_pow, Nat.reducePow]
    omega
  · cases decoded

/-- Whether a word names the operation with a code that no operation has: it is of one of the
two kinds that name an operation, and the code is the largest one. -/
def NamesNoOperation (word : UInt32) : Prop :=
  StartsWithOnes word 1 ∧ ¬ StartsWithOnes word 2 ∧ word.toNat >>> 26 % 16 = 15
    ∨ StartsWithOnes word 3 ∧ ¬ StartsWithOnes word 4 ∧ word.toNat >>> 24 % 16 = 15

theorem namesNoOperation_iff {word : UInt32} : NamesNoOperation word
    ↔ 0x80000000 ≤ word.toNat ∧ word.toNat < 0xc0000000 ∧ AluOp.ofCode? (word.toNat >>> 26 % 16) = none
      ∨ 0xe0000000 ≤ word.toNat ∧ word.toNat < 0xf0000000
        ∧ AluOp.ofCode? (word.toNat >>> 24 % 16) = none := by
  have lt : word.toNat < 0x100000000 := word.toNat_lt
  rw [NamesNoOperation, startsWithOnes_iff (by decide), startsWithOnes_iff (by decide),
    startsWithOnes_iff (by decide), startsWithOnes_iff (by decide), AluOp.ofCode?_eq_none_iff,
    AluOp.ofCode?_eq_none_iff]
  simp only [Nat.reducePow, Nat.reduceSub]
  omega

/-- **A word that is no instruction** starts with six ones, or names an operation that does
not exist. -/
theorem decode_eq_error {word : UInt32} {e : InstructionError} : decode word = .error e
    ↔ StartsWithOnes word 6 ∧ e = .invalidPrefix word
      ∨ NamesNoOperation word ∧ e = .invalidOpcode word := by
  have lt : word.toNat < 0x100000000 := word.toNat_lt
  have ones : StartsWithOnes word 6 ↔ 0xfc000000 ≤ word.toNat := by
    rw [startsWithOnes_iff (by decide)]
    simp only [Nat.reducePow, Nat.reduceSub]
    omega
  rw [ones, namesNoOperation_iff]
  have succeeds {i : Instruction} {p q : Prop} (notPrefix : ¬ p) (notOpcode : ¬ q) :
      Except.ok i = .error e ↔ p ∧ e = .invalidPrefix word ∨ q ∧ e = .invalidOpcode word := by
    simp [notPrefix, notOpcode]
  have fails {p q : Prop} (notPrefix : ¬ p) (opcode : q) :
      (Except.error (.invalidOpcode word) : Except InstructionError Instruction) = .error e
        ↔ p ∧ e = .invalidPrefix word ∨ q ∧ e = .invalidOpcode word := by
    simp [notPrefix, opcode, eq_comm]
  -- the kinds of instructions by the ones that their words start with, fewest first
  unfold decode
  dsimp only
  split
  · exact succeeds (by omega) (by omega)
  split
  · split <;> rename_i found
    · exact fails (by omega) (.inl ⟨by omega, by omega, found⟩)
    · exact succeeds (by omega) (by simp [found]; omega)
  split
  · exact succeeds (by omega) (by omega)
  split
  · split <;> rename_i found
    · exact fails (by omega) (.inr ⟨by omega, by omega, found⟩)
    · exact succeeds (by omega) (by simp [found]; omega)
  split
  · exact succeeds (by omega) (by omega)
  split
  · exact succeeds (by omega) (by omega)
  · have prefixed : 0xfc000000 ≤ word.toNat := by omega
    have not : ¬ word.toNat < 0xf0000000 := by omega
    have not' : ¬ word.toNat < 0xc0000000 := by omega
    simp [prefixed, not, not', eq_comm]

/-- **Instructions and words.** An instruction has a word just if what its signed field holds
lies between the bounds of the field; the word is read as the instruction; a word that is read
as an instruction is the word of the instruction, up to unused bits, unless the field
holds the least number; and all words are read but those that start with six ones or name no
operation. -/
theorem codec :
    (∀ i : Instruction, (∃ word, i.encode = .ok word)
      ↔ ∀ field value, i.signed? = some (field, value) →
        -2 ^ (field.bits - 1) < value.toInt ∧ value.toInt < 2 ^ (field.bits - 1))
    ∧ (∀ (i : Instruction) word, i.encode = .ok word → decode word = .ok i)
    ∧ (∀ word i, decode word = .ok i →
      (∃ field value, i.signed? = some (field, value) ∧ value.toInt = -2 ^ (field.bits - 1)
          ∧ i.encode = .error (.outOfRange field value.toInt field.bits))
        ∨ i.encode = .ok (i.cleared word))
    ∧ ∀ word e, decode word = .error e ↔ StartsWithOnes word 6 ∧ e = .invalidPrefix word
      ∨ NamesNoOperation word ∧ e = .invalidOpcode word :=
  ⟨exists_encode_iff, fun _ _ => decode_encode, fun _ _ => encode_of_decode,
    fun _ _ => decode_eq_error⟩

end Instruction

end Polyglot.Machine
