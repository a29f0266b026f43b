import Mathlib
import Polyglot.Proofs.Machine.Contents

/-!
# Files of programs

A file is a row of words, and the words of a row of bytes are what their bytes were made of, as
long as there are whole words of them. So it is enough to look at the words of a file: the two
of the header, and those of the sections.

The header counts in two units and in 32 bits. A program whose sections can be counted in this way
(`Program.IsCountable`) is read from its own file. What is accepted is always the file of a program
that can be counted, and of no other: the checks of the header leave no byte of the file unread.
-/

namespace Polyglot.Machine.Program

/-! ## Bytes and words -/

/-- Words are made of their bytes again. -/
theorem wordsOfBytes_flatMap (words : List UInt32) :
    wordsOfBytes (words.flatMap wordBytes) = words := by
  induction words with
  | nil => rfl
  | cons w ws ih =>
    rw [List.flatMap_cons]
    show wordOfBytes _ _ _ _ :: wordsOfBytes (ws.flatMap wordBytes) = _
    rw [ih, wordOfBytes_wordBytes]

/-- Bytes are those of their words, if these are whole. -/
theorem flatMap_wordsOfBytes {bytes : List UInt8} (whole : bytes.length % 4 = 0) :
    (wordsOfBytes bytes).flatMap wordBytes = bytes := by
  fun_induction wordsOfBytes bytes with
  | case1 => rfl
  | case2 | case3 | case4 => simp at whole
  | case5 b₀ b₁ b₂ b₃ rest ih =>
    have rest_whole : rest.length % 4 = 0 := by
      simp only [List.length_cons] at whole
      omega
    rw [List.flatMap_cons, ih rest_whole, wordBytes_wordOfBytes]
    rfl

/-! ## The header -/

/-- Whether the sections of a program can be counted in the header of its file. -/
structure IsCountable (p : Program) : Prop where
  /-- The words of data. -/
  data : p.data.length < 2 ^ 32
  /-- The bytes of code, which are four for each word. -/
  code : p.code.length < 2 ^ 30

/-- The words of a file are those of its bytes. -/
theorem wordsOfBytes_toBytes (p : Program) : wordsOfBytes p.toBytes = p.fileWords :=
  wordsOfBytes_flatMap p.fileWords

theorem length_toBytes_mod (p : Program) : p.toBytes.length % 4 = 0 := by
  rw [toBytes, length_flatMap_wordBytes]
  exact Nat.mul_mod_right 4 _

/-- **A program is read from its own file**, if its sections can be counted. -/
theorem ofBytes_toBytes {p : Program} (countable : p.IsCountable) : ofBytes p.toBytes = .ok p := by
  have data : (UInt32.ofNat p.data.length).toNat = p.data.length :=
    UInt32.toNat_ofNat_of_lt' countable.data
  have code : (UInt32.ofNat (p.code.length * 4)).toNat = p.code.length * 4 :=
    UInt32.toNat_ofNat_of_lt' (by have := countable.code; show _ < 2 ^ 32; omega)
  unfold ofBytes
  rw [if_neg (not_not_intro p.length_toBytes_mod), wordsOfBytes_toBytes, fileWords]
  dsimp only
  rw [data, code, if_neg (not_not_intro (Nat.mul_mod_left _ _)), Nat.mul_div_cancel _ (by decide),
    List.length_append, if_neg (not_not_intro rfl), List.take_left, List.drop_left]

/-- **What is accepted** are whole words, and the header counts the words behind it. -/
theorem ofBytes_eq_ok {bytes : List UInt8} {p : Program} (read : ofBytes bytes = .ok p) :
    bytes.length % 4 = 0 ∧ ∃ dataWords codeBytes body,
      wordsOfBytes bytes = dataWords :: codeBytes :: body ∧ codeBytes.toNat % 4 = 0
        ∧ dataWords.toNat + codeBytes.toNat / 4 = body.length
        ∧ p = ⟨body.take dataWords.toNat, body.drop dataWords.toNat⟩ := by
  unfold ofBytes at read
  split at read
  · cases read
  rename_i whole
  split at read
  · rename_i dataWords codeBytes body words
    split at read
    · cases read
    rename_i wholeCode
    split at read
    · cases read
    rename_i counted
    exact ⟨Decidable.not_not.1 whole, dataWords, codeBytes, body, words, Decidable.not_not.1 wholeCode,
      Decidable.not_not.1 counted, (Except.ok.inj read).symm⟩
  · cases read

/-- What is accepted is the file of what is read from it. -/
theorem toBytes_of_ofBytes {bytes : List UInt8} {p : Program} (read : ofBytes bytes = .ok p) :
    p.IsCountable ∧ p.toBytes = bytes := by
  obtain ⟨whole, dataWords, codeBytes, body, words, wholeCode, counted, rfl⟩ := ofBytes_eq_ok read
  have bound : codeBytes.toNat < 2 ^ 32 := codeBytes.toNat_lt
  have data : (body.take dataWords.toNat).length = dataWords.toNat := by
    rw [List.length_take]
    omega
  have code : (body.drop dataWords.toNat).length * 4 = codeBytes.toNat := by
    rw [List.length_drop]
    omega
  refine ⟨⟨data.symm ▸ dataWords.toNat_lt, ?_⟩, ?_⟩
  · show (body.drop dataWords.toNat).length < 2 ^ 30
    omega
  · rw [toBytes, fileWords, data, code, UInt32.ofNat_toNat, UInt32.ofNat_toNat,
      List.take_append_drop, ← words, flatMap_wordsOfBytes whole]

/-- **A file is accepted as a program** just if the program can be counted and this is its file. -/
theorem ofBytes_eq_ok_iff {bytes : List UInt8} {p : Program} :
    ofBytes bytes = .ok p ↔ p.IsCountable ∧ p.toBytes = bytes := by
  constructor
  · exact toBytes_of_ofBytes
  · rintro ⟨countable, rfl⟩
    exact ofBytes_toBytes countable

/-- **Files and programs.** A program with fewer than `2 ^ 32` words of data and fewer than
`2 ^ 30` of code is read from its own file; a file that is accepted is the file of the program that
is read from it; and the files that are accepted are exactly those of such programs. -/
theorem file_codec :
    (∀ p : Program, p.data.length < 2 ^ 32 → p.code.length < 2 ^ 30 → ofBytes p.toBytes = .ok p)
    ∧ (∀ bytes p, ofBytes bytes = .ok p → p.toBytes = bytes)
    ∧ ∀ bytes, (∃ p, ofBytes bytes = .ok p)
      ↔ ∃ p : Program, (p.data.length < 2 ^ 32 ∧ p.code.length < 2 ^ 30) ∧ p.toBytes = bytes := by
  refine ⟨fun p data code => ofBytes_toBytes ⟨data, code⟩,
    fun bytes p read => (toBytes_of_ofBytes read).2, fun bytes => exists_congr fun p => ?_⟩
  rw [ofBytes_eq_ok_iff]
  exact and_congr_left' ⟨fun h => ⟨h.data, h.code⟩, fun h => ⟨h.1, h.2⟩⟩

end Polyglot.Machine.Program
