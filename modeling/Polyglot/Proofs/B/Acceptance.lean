import Polyglot.Proofs.B.Checks
import Polyglot.Proofs.B.Sources

/-!
# What the compiler accepts

Whether a source is compiled can be told from two things: what its tokens are (`Token.Admissible`), and
what its program refers to (`Program.Coherent`). No number may be larger than the literal of an
instruction can be, whatever sign is before it and wherever it stands, as an expression or as the offset
of an address; and no text may have an escape that means nothing. Then the compiler accepts exactly the
coherent programs (`exists_compile_shake_iff`).

For texts this is because they are collected before anything else. For numbers it is because none of them
is lost on the way to the program, and none is added to it (`fine_ofTree_shake`). And what may be read in a
function besides its parameters is what is assigned in its body (`mem_assigned_iff`).
-/

namespace Polyglot

/-- Whether a token is no number above the largest literal of an instruction, and no text in which a
backslash is before something that it does not go with. -/
structure Token.Admissible (t : Token) : Prop where
  /-- It is no number that is too large. -/
  number : t.type = "decimal_integer" → ∀ n, Text.natural? t.lexeme.toList = some n → n ≤ 32767
  /-- It is no text with an escape that means nothing. -/
  text : t.type = "escaped_string" → ∀ inner, delimited? '"' t.lexeme.toList = some inner →
    (Text.unescape inner).isSome

instance (t : Token) : Decidable t.Admissible :=
  decidable_of_iff ((t.type = "decimal_integer" → ∀ n ∈ Text.natural? t.lexeme.toList, n ≤ 32767)
    ∧ (t.type = "escaped_string" → ∀ inner ∈ delimited? '"' t.lexeme.toList,
      (Text.unescape inner).isSome))
    ⟨fun h => ⟨h.1, h.2⟩, fun h => ⟨h.number, h.text⟩⟩

end Polyglot

namespace Polyglot.B

variable {source : String} {raw : Tree} {token : Token}

/-- A number is small if it has a value, and that is small. -/
theorem fine_isSmall_iff (whole : lexicon.Whole token) : token.Fine IsSmall
    ↔ (token.type = "decimal_integer" → ∀ n, Text.natural? token.lexeme.toList = some n → n ≤ 32767) := by
  refine forall_congr' fun is => ?_
  obtain ⟨n, digits, value⟩ := whole.exists_number is
  rw [digits, value]
  constructor
  · rintro ⟨m, read, small⟩ _ same
    obtain rfl := Option.some.inj same
    split at read
    · obtain rfl := Option.some.inj read
      exact small
    · cases read
  · intro small
    have small := small n rfl
    exact ⟨n, if_pos (by omega), small⟩

/-- A text has a value if its escapes mean something. -/
theorem isSome_str?_iff (whole : lexicon.Whole token) (is : token.type = "escaped_string") :
    token.str?.isSome
      ↔ ∀ inner, delimited? '"' token.lexeme.toList = some inner → (Text.unescape inner).isSome := by
  obtain ⟨inner, delimited, value⟩ := whole.exists_text is
  rw [delimited, value, Option.isSome_map]
  exact ⟨fun h _ eq => Option.some.inj eq ▸ h, fun h => h inner rfl⟩

/-- Tokens are admissible if numbers are small and texts have values. -/
theorem forall_admissible_iff (parsed : language.parse source = .ok raw) :
    (∀ token ∈ raw.tokens, token.Admissible)
      ↔ raw.Fine IsSmall ∧ ∀ token ∈ raw.tokens, token.type = "escaped_string" → token.str?.isSome := by
  obtain ⟨-, -, each⟩ := derives_of_parse parsed
  rw [Tree.Fine, ← forall₂_and]
  refine forall₂_congr fun token mem => ?_
  rcases each token mem with reserved | whole
  · have other {type : String} (read : isReserved type = false) : token.type ≠ type := by
      rintro rfl
      exact Bool.false_ne_true (read.symm.trans reserved)
    have noNumber : token.type ≠ "decimal_integer" := other (by decide)
    have noText : token.type ≠ "escaped_string" := other (by decide)
    exact iff_of_true ⟨fun is => absurd is noNumber, fun is => absurd is noText⟩
      ⟨Token.fine_of_type noNumber, fun is => absurd is noText⟩
  · rw [fine_isSmall_iff whole, forall_congr' (isSome_str?_iff whole)]
    exact ⟨fun h => ⟨h.number, h.text⟩, fun h => ⟨h.1, h.2⟩⟩

/-- **The compiler accepts** exactly those sources that are read and have admissible tokens and a coherent
program. -/
theorem exists_compile_shake_iff (parsed : language.parse source = .ok raw) :
    (∃ l, compile (language.shake raw) = .ok l)
      ↔ (∀ token ∈ raw.tokens, token.Admissible) ∧ (Program.ofTree (language.shake raw)).Coherent := by
  have zero : IsSmall 0 := Nat.zero_le _
  rw [forall_admissible_iff parsed, ← fine_ofTree_shake parsed zero, ← texts_ofTree_shake parsed, and_assoc,
    and_left_comm]
  exact Program.exists_compile_iff (mem_assigned_iff parsed)

/-- A number may be divided by what is not known to be zero, and one that is small may not be divided by
what is. -/
theorem exists_compile_halves :
    (∃ raw, language.parse "fn main()return half(7);fn half(n)return n/(3-1);" = .ok raw
      ∧ (∃ l, compile (language.shake raw) = .ok l)
      ∧ (∀ token ∈ raw.tokens, token.Admissible) ∧ (Program.ofTree (language.shake raw)).Coherent)
    ∧ ∃ raw, language.parse "fn main()return 7/(1-1);" = .ok raw
      ∧ (∀ token ∈ raw.tokens, token.Admissible) ∧ ¬ (Program.ofTree (language.shake raw)).Coherent := by
  have grammar : language.grammar? = .ok readGrammar := grammar_eq
  have vocabulary : readGrammar.vocabulary = lexicon.vocabulary := rfl
  constructor
  · obtain ⟨raw, parsed, checked⟩ : ∃ raw,
        language.parse "fn main()return half(7);fn half(n)return n/(3-1);" = .ok raw
          ∧ (compile (language.shake raw)).toOption.isSome :=
      Language.exists_parse grammar vocabulary 80 (by decide +kernel)
    obtain ⟨l, compiled⟩ := Option.isSome_iff_exists.1 checked
    replace compiled := Except.toOption_eq_some.1 compiled
    obtain ⟨admissible, coherent⟩ := (exists_compile_shake_iff parsed).1 ⟨l, compiled⟩
    exact ⟨raw, parsed, ⟨l, compiled⟩, admissible, coherent⟩
  · obtain ⟨raw, parsed, checked⟩ : ∃ raw, language.parse "fn main()return 7/(1-1);" = .ok raw
        ∧ raw.tokens.all (decide ·.Admissible) && (compile (language.shake raw)).toOption.isNone :=
      Language.exists_parse grammar vocabulary 80 (by decide +kernel)
    obtain ⟨admissible, refused⟩ := Bool.and_eq_true_iff.1 checked
    replace admissible : ∀ token ∈ raw.tokens, token.Admissible := fun token mem =>
      of_decide_eq_true (List.all_eq_true.1 admissible token mem)
    refine ⟨raw, parsed, admissible, fun coherent => ?_⟩
    obtain ⟨l, compiled⟩ := (exists_compile_shake_iff parsed).2 ⟨admissible, coherent⟩
    rw [compiled] at refused
    cases refused

end Polyglot.B
