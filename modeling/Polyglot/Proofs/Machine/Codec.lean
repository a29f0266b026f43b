import Polyglot.Machine.Instruction
import Polyglot.Proofs.Success

/-!
# Words of instructions read back

The word of an instruction is read as that instruction (`Instruction.decode_encode`).

A word is a sum of fields, each shifted to its place and smaller than the place is
wide. What a field holds is therefore found by dividing and taking a remainder,
and the kind of the instruction by comparing the word with the least word of each
kind. The only field that holds more than a number is the signed one: its value is
stored modulo the size of the field and read back from the half it lies in
(`Field.read_of_write`).
-/

namespace Polyglot.Machine

namespace Field

/-- What is written fits the field. -/
theorem fits_of_write {field : Field} {value : Int32} {low : Nat}
    (written : field.write value = .ok low) :
    value.toInt.natAbs < Text.bitRange (field.bits - 1)
      ∧ low = (value.toInt % field.size).toNat := by
  unfold write fits at written
  split at written
  · rename_i fit
    exact ⟨by simpa using fit, (Except.ok.inj written).symm⟩
  · cases written

/-- What is written is smaller than the field. -/
theorem write_lt {field : Field} {value : Int32} {low : Nat}
    (written : field.write value = .ok low) : low < field.size := by
  obtain ⟨-, rfl⟩ := fits_of_write written
  have positive : (0 : Int) < field.size := by cases field <;> decide
  have := Int.emod_lt_of_pos value.toInt positive
  have := Int.emod_nonneg value.toInt (Int.ne_of_gt positive)
  omega

/-- What is written is read back, whatever stands above the field. -/
theorem read_of_write {field : Field} {value : Int32} {low word : Nat}
    (written : field.write value = .ok low) (stands : word % field.size = low) :
    field.read word = value := by
  obtain ⟨fit, rfl⟩ := fits_of_write written
  unfold read
  rw [stands]
  dsimp only
  have back : (if (value.toInt % field.size).toNat < field.size / 2
        then ((value.toInt % field.size).toNat : Int)
        else ((value.toInt % field.size).toNat : Int) - field.size) = value.toInt := by
    by_cases lower : (value.toInt % field.size).toNat < field.size / 2
    · rw [if_pos lower]
      cases field <;> simp only [bits, size, Text.bitRange, Nat.reduceSub, Nat.reduceShiftLeft]
        at fit lower ⊢ <;> omega
    · rw [if_neg lower]
      cases field <;> simp only [bits, size, Text.bitRange, Nat.reduceSub, Nat.reduceShiftLeft]
        at fit lower ⊢ <;> omega
  rw [back, Int32.ofInt_toInt]

end Field

namespace AluOp

/-- The codes of operations have four bits. -/
theorem code_lt (op : AluOp) : op.code < 16 := by cases op <;> decide

end AluOp

namespace Instruction

/-- A register is found where its number stands. -/
theorem registerAt_eq {word shift : Nat} {r : Register} (stands : word >>> shift % 32 = r.index.val) :
    registerAt word shift = r := by
  rcases r with ⟨⟨n, lt⟩⟩
  simp only [registerAt, Register.mk.injEq, Fin.mk.injEq]
  exact stands

/-- A number of 32 bits is the number of its word. -/
theorem toNat_ofNat_of_lt {n : Nat} (lt : n < 0x100000000) : (UInt32.ofNat n).toNat = n := by
  rw [UInt32.toNat_ofNat']
  exact Nat.mod_eq_of_lt (by simpa using lt)

/-! The fields are the digits of the number, and the bounds on them put it among the numbers of its
kind. -/

/-- A branch is the least kind: its word starts with a zero. -/
theorem decode_branch {op : BranchOp} {src1 src2 : Register} {offset : Int32} {n : Nat}
    (encoded : (branch op src1 src2 offset).encodeNat = .ok n) :
    decode (UInt32.ofNat n) = .ok (branch op src1 src2 offset) := by
  obtain ⟨low, written, number⟩ := Except.bind_eq_ok.1 encoded
  replace number := Except.pure_eq_ok.1 number
  have low_lt : low < 0x100000 := Field.write_lt written
  have op_lt : op.code < 2 := by cases op <;> decide
  have := src1.index.isLt
  have := src2.index.isLt
  simp only [Nat.shiftLeft_eq, Nat.reducePow] at number
  have lt : n < 0x80000000 := by omega
  have sign : n >>> 30 % 2 = op.code := by
    simp only [Nat.shiftRight_eq_div_pow, Nat.reducePow]; omega
  have first : registerAt n 25 = src1 := registerAt_eq (by
    simp only [Nat.shiftRight_eq_div_pow, Nat.reducePow]; omega)
  have second : registerAt n 20 = src2 := registerAt_eq (by
    simp only [Nat.shiftRight_eq_div_pow, Nat.reducePow]; omega)
  have value : Field.branchOffset.read n = offset := Field.read_of_write written (by
    show n % 0x100000 = low; omega)
  simp only [decode, toNat_ofNat_of_lt (show n < 0x100000000 by omega), lt, ↓reduceIte, sign,
    first, second, value]
  cases op <;> rfl

/-- An operation on a number has a word that starts with `10`. -/
theorem decode_immediate {op : AluOp} {dst src : Register} {imm : Int32} {n : Nat}
    (encoded : (immediate op dst src imm).encodeNat = .ok n) :
    decode (UInt32.ofNat n) = .ok (immediate op dst src imm) := by
  obtain ⟨low, written, number⟩ := Except.bind_eq_ok.1 encoded
  replace number := Except.pure_eq_ok.1 number
  have low_lt : low < 0x10000 := Field.write_lt written
  have op_lt := op.code_lt
  have := dst.index.isLt
  have := src.index.isLt
  simp only [Nat.shiftLeft_eq, Nat.reducePow] at number
  have ge : ¬ n < 0x80000000 := by omega
  have lt : n < 0xc0000000 := by omega
  have sign : n >>> 26 % 16 = op.code := by
    simp only [Nat.shiftRight_eq_div_pow, Nat.reducePow]; omega
  have first : registerAt n 21 = dst := registerAt_eq (by
    simp only [Nat.shiftRight_eq_div_pow, Nat.reducePow]; omega)
  have second : registerAt n 16 = src := registerAt_eq (by
    simp only [Nat.shiftRight_eq_div_pow, Nat.reducePow]; omega)
  have value : Field.immediate.read n = imm := Field.read_of_write written (by
    show n % 0x10000 = low; omega)
  simp only [decode, toNat_ofNat_of_lt (show n < 0x100000000 by omega), ge, lt, ↓reduceIte, sign,
    AluOp.ofCode?_code, first, second, value]

/-- What goes to memory or comes from there has a word that starts with `110`. -/
theorem decode_memory {op : MemoryOp} {reg base : Register} {offset : Int32} {n : Nat}
    (encoded : (memory op reg base offset).encodeNat = .ok n) :
    decode (UInt32.ofNat n) = .ok (memory op reg base offset) := by
  obtain ⟨low, written, number⟩ := Except.bind_eq_ok.1 encoded
  replace number := Except.pure_eq_ok.1 number
  have low_lt : low < 0x40000 := Field.write_lt written
  have op_lt : op.code < 2 := by cases op <;> decide
  have := reg.index.isLt
  have := base.index.isLt
  simp only [Nat.shiftLeft_eq, Nat.reducePow] at number
  have ge : ¬ n < 0xc0000000 := by omega
  have ge' : ¬ n < 0x80000000 := by omega
  have lt : n < 0xe0000000 := by omega
  have sign : n >>> 28 % 2 = op.code := by
    simp only [Nat.shiftRight_eq_div_pow, Nat.reducePow]; omega
  have first : registerAt n 23 = reg := registerAt_eq (by
    simp only [Nat.shiftRight_eq_div_pow, Nat.reducePow]; omega)
  have second : registerAt n 18 = base := registerAt_eq (by
    simp only [Nat.shiftRight_eq_div_pow, Nat.reducePow]; omega)
  have value : Field.memoryOffset.read n = offset := Field.read_of_write written (by
    show n % 0x40000 = low; omega)
  simp only [decode, toNat_ofNat_of_lt (show n < 0x100000000 by omega), ge, ge', lt, ↓reduceIte,
    sign, first, second, value]
  cases op <;> rfl

/-- An operation on registers has a word that starts with `1110`, whatever the last nine bits are. -/
theorem decode_operation {op : AluOp} {dst src1 src2 : Register} {n : Nat}
    (encoded : (operation op dst src1 src2).encodeNat = .ok n) :
    decode (UInt32.ofNat n) = .ok (operation op dst src1 src2) := by
  have number := Except.pure_eq_ok.1 encoded
  have op_lt := op.code_lt
  have := dst.index.isLt
  have := src1.index.isLt
  have := src2.index.isLt
  simp only [Nat.shiftLeft_eq, Nat.reducePow] at number
  have ge : ¬ n < 0xe0000000 := by omega
  have ge' : ¬ n < 0xc0000000 := by omega
  have ge'' : ¬ n < 0x80000000 := by omega
  have lt : n < 0xf0000000 := by cases op <;> simp only [AluOp.code] at number <;> omega
  have sign : n >>> 24 % 16 = op.code := by
    simp only [Nat.shiftRight_eq_div_pow, Nat.reducePow]; omega
  have first : registerAt n 19 = dst := registerAt_eq (by
    simp only [Nat.shiftRight_eq_div_pow, Nat.reducePow]; omega)
  have second : registerAt n 14 = src1 := registerAt_eq (by
    simp only [Nat.shiftRight_eq_div_pow, Nat.reducePow]; omega)
  have third : registerAt n 9 = src2 := registerAt_eq (by
    simp only [Nat.shiftRight_eq_div_pow, Nat.reducePow]; omega)
  simp only [decode, toNat_ofNat_of_lt (show n < 0x100000000 by omega), ge, ge', ge'', lt,
    ↓reduceIte, sign, AluOp.ofCode?_code, first, second, third]

/-- A jump has a word that starts with `11110`. -/
theorem decode_jump {offset : Int32} {n : Nat}
    (encoded : (jump offset).encodeNat = .ok n) :
    decode (UInt32.ofNat n) = .ok (jump offset) := by
  obtain ⟨low, written, number⟩ := Except.bind_eq_ok.1 encoded
  replace number := Except.pure_eq_ok.1 number
  have low_lt : low < 0x8000000 := Field.write_lt written
  have value : Field.jumpOffset.read n = offset := Field.read_of_write written (by
    show n % 0x8000000 = low; omega)
  have ge : ¬ n < 0xf0000000 := by omega
  have ge' : ¬ n < 0xe0000000 := by omega
  have ge'' : ¬ n < 0xc0000000 := by omega
  have ge''' : ¬ n < 0x80000000 := by omega
  have lt : n < 0xf8000000 := by omega
  simp only [decode, toNat_ofNat_of_lt (show n < 0x100000000 by omega), ge, ge', ge'', ge''', lt,
    ↓reduceIte, value]

/-- A call of the environment has a word that starts with `111110`. -/
theorem decode_env {op : EnvOp} {n : Nat}
    (encoded : (env op).encodeNat = .ok n) :
    decode (UInt32.ofNat n) = .ok (env op) := by
  obtain rfl := Except.pure_eq_ok.1 encoded
  cases op <;> rfl

/-- **The number of an instruction is read as the instruction.** -/
theorem decode_encodeNat {i : Instruction} {n : Nat} (encoded : i.encodeNat = .ok n) :
    decode (UInt32.ofNat n) = .ok i := by
  cases i with
  | branch => exact decode_branch encoded
  | immediate => exact decode_immediate encoded
  | memory => exact decode_memory encoded
  | operation => exact decode_operation encoded
  | jump => exact decode_jump encoded
  | env => exact decode_env encoded

/-- **The word of an instruction is read as the instruction.** -/
theorem decode_encode {i : Instruction} {word : UInt32} (encoded : i.encode = .ok word) :
    decode word = .ok i := by
  obtain ⟨n, number, rfl⟩ := Except.map_eq_ok.1 encoded
  exact decode_encodeNat number

end Instruction

end Polyglot.Machine
