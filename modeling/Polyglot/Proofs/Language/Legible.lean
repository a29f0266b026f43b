import Mathlib
import Polyglot.Proofs.Language.Grammars
import Polyglot.Proofs.Lexis.Showing
import Polyglot.Proofs.Lexis.Spelling
import Polyglot.Proofs.Parsing.Sentences

/-!
# Legible sources

A number has no value if it needs more than 64 bits, and a text in quotes has none if there is
something behind a backslash that does not go with it. Otherwise a token is *legible*
(`Token.Legible`), which is a matter of what is written there. If a lexicon has cut it out of a
source, it is then *sound* (`Lexicon.Whole.isSound`): it has the value that its type promises, and
the text too, if that is an exact one.

So if all tokens of a source are legible, its tree has nothing but sound tokens
(`Language.isSound_of_parse`).
-/

namespace Polyglot

/-! ## What is asked of tokens -/

namespace Token

/-- Whether a token is no number above the largest one of 64 bits, and no text in which a
backslash is before something that it does not go with. -/
structure Legible (t : Token) : Prop where
  /-- It is no number that is too large. -/
  number : t.type = "decimal_integer" → ∀ n, Text.natural? t.lexeme.toList = some n → n < 2 ^ 63
  /-- It is no text with an escape that means nothing. -/
  text : t.type = "escaped_string" → ∀ inner, delimited? '"' t.lexeme.toList = some inner →
    (Text.unescape inner).isSome

instance (t : Token) : Decidable t.Legible :=
  decidable_of_iff ((t.type = "decimal_integer" → ∀ n ∈ Text.natural? t.lexeme.toList, n < 2 ^ 63)
    ∧ (t.type = "escaped_string" → ∀ inner ∈ delimited? '"' t.lexeme.toList,
      (Text.unescape inner).isSome))
    ⟨fun h => ⟨h.1, h.2⟩, fun h => ⟨h.number, h.text⟩⟩

/-- Whether a token has what its type promises. -/
structure IsSound (t : Token) : Prop where
  /-- The type of an exact text has just that text. -/
  exact : ∀ text, t.type = Text.quote text → t.lexeme = text
  /-- A number has a value. -/
  number : t.type = "decimal_integer" → t.int?.isSome
  /-- A text in quotes has a value. -/
  text : t.type = "escaped_string" → t.str?.isSome

end Token

/-- Whether all tokens of a source are legible in a language. -/
def Language.Legible (l : Language) (source : String) : Prop :=
  ∀ g ts, l.grammar? = .ok g → g.tokenize source = .ok ts → ∀ t ∈ ts, t.Legible

namespace Text

/-- Digits without a sign are a number, and have it as their value if it is small enough. -/
theorem signed?_of_isDigit {c : Char} {rest : List Char} (isDigit : ∀ d ∈ c :: rest, d.isDigit) :
    ∃ n, natural? (c :: rest) = some n
      ∧ signed? 64 (c :: rest) = if n < 2 ^ 63 then some (n : Int) else none := by
  have value : natural? (c :: rest) = some (Nat.ofDigitChars 10 (c :: rest) 0) :=
    Lexicon.digitsValue?_eq isDigit 0
  generalize Nat.ofDigitChars 10 (c :: rest) 0 = n at value
  have inRange : (-((bitRange (64 - 1) : Nat) : Int) ≤ Int.ofNat n
      ∧ Int.ofNat n < (bitRange (64 - 1) : Nat)) ↔ n < 2 ^ 63 := by
    have half : bitRange (64 - 1) = 2 ^ 63 := Nat.one_shiftLeft 63
    rw [half, Int.ofNat_eq_natCast]
    omega
  have first := isDigit c List.mem_cons_self
  refine ⟨n, value, ?_⟩
  unfold signed?
  -- the first digit is no sign
  split
  · rename_i eq
    obtain ⟨rfl, -⟩ := List.cons.inj eq
    cases first
  · rename_i eq
    obtain ⟨rfl, -⟩ := List.cons.inj eq
    cases first
  · rw [value, Option.map_some, Option.bind_eq_bind, Option.bind_some]
    exact if_congr inRange rfl rfl

end Text

namespace Lexicon

/-! ## What lexicons promise -/

open Regex.Program (closing_take reachBetween run)

variable {l : Lexicon}

/-- What a text in quotes looks like. -/
theorem exists_delimited {text : List Char} (reaches : Shape.string.reach? text = some text.length) :
    ∃ inner, delimited? '"' text = some inner := by
  cases text with
  | nil => cases reaches
  | cons c rest =>
    have reaches : reachBetween '"' (c :: rest) = some (c :: rest).length := reaches
    rw [reachBetween] at reaches
    split at reaches
    · rename_i isMark
      obtain ⟨n, closed, eq⟩ := Option.map_eq_some_iff.1 reaches
      obtain rfl : n = rest.length := Nat.succ.inj eq
      have last := (closing_take closed (by decide)).2
      rw [List.take_length] at last
      exact ⟨rest.dropLast, if_pos ⟨isMark, last⟩⟩
    · cases reaches

/-- No builtin entry is named like an exact text. -/
theorem quote_ne {text name : String} (noQuote : name.toList.head? ≠ some '"') :
    Text.quote text ≠ name := by
  rintro rfl
  exact noQuote (by rw [Text.quote, String.toList_ofList]; rfl)

/-- What a number is made of. -/
theorem Whole.isDigit {t : Token} (whole : l.Whole t) (is : t.type = "decimal_integer") :
    (∀ d ∈ t.lexeme.toList, d.isDigit)
      ∧ t.literal = (Text.signed? 64 t.lexeme.toList).map Literal.int := by
  obtain ⟨s, -, reaches, type, literal⟩ := whole.exists_entry
  have named : s.entry.name = "decimal_integer" := type.symm.trans is
  cases s with
  | exact => exact absurd named (quote_ne (by decide))
  | identifier | string | regex => exact absurd named (by decide)
  | integer =>
    refine ⟨?_, literal⟩
    cases list : t.lexeme.toList with
    | nil => exact absurd list whole.ne_nil
    | cons c rest =>
      rw [list] at reaches
      obtain ⟨first, others⟩ := reachOf_eq_length.1 reaches
      have isDigit {d : Char} (mem : digits.contains d) : d.isDigit := by
        rw [Char.isDigit_iff_toNat]
        simpa [digits, CharSet.contains] using mem
      exact List.forall_mem_cons.2 ⟨isDigit first, fun d mem => isDigit (others d mem)⟩

/-- A number is what is made of digits, and has a value if it is small enough. -/
theorem Whole.exists_number {t : Token} (whole : l.Whole t) (is : t.type = "decimal_integer") :
    ∃ n, Text.natural? t.lexeme.toList = some n
      ∧ t.int? = if n < 2 ^ 63 then some (n : Int) else none := by
  obtain ⟨isDigit, literal⟩ := whole.isDigit is
  cases list : t.lexeme.toList with
  | nil => exact absurd list whole.ne_nil
  | cons c rest =>
    rw [list] at isDigit literal
    obtain ⟨n, digits, value⟩ := Text.signed?_of_isDigit isDigit
    refine ⟨n, digits, ?_⟩
    rw [Token.int?, literal, ← value]
    cases Text.signed? 64 (c :: rest) <;> rfl

/-- A number has a value if it is legible. -/
theorem Whole.isSome_int? {t : Token} (whole : l.Whole t) (legible : t.Legible)
    (is : t.type = "decimal_integer") : t.int?.isSome := by
  obtain ⟨n, digits, value⟩ := whole.exists_number is
  rw [value, if_pos (legible.number is n digits)]
  rfl

/-- A text in quotes is what is between them, read from behind its backslashes. -/
theorem Whole.exists_text {t : Token} (whole : l.Whole t) (is : t.type = "escaped_string") :
    ∃ inner, delimited? '"' t.lexeme.toList = some inner
      ∧ t.str? = (Text.unescape inner).map String.ofList := by
  obtain ⟨s, -, reaches, type, literal⟩ := whole.exists_entry
  have named : s.entry.name = "escaped_string" := type.symm.trans is
  cases s with
  | exact => exact absurd named (quote_ne (by decide))
  | identifier | integer | regex => exact absurd named (by decide)
  | string =>
    obtain ⟨inner, delimited⟩ := exists_delimited reaches
    refine ⟨inner, delimited, ?_⟩
    have eq : t.literal = (Text.unescape inner).map fun text => .str (String.ofList text) := by
      rw [literal]
      show (do
        let inner ← delimited? '"' t.lexeme.toList
        return Literal.str (String.ofList (← Text.unescape inner))) = _
      rw [delimited]
      show (do return Literal.str (String.ofList (← Text.unescape inner))) = _
      cases Text.unescape inner <;> rfl
    rw [Token.str?, eq]
    cases Text.unescape inner <;> rfl

/-- A text in quotes has a value if it is legible. -/
theorem Whole.isSome_str? {t : Token} (whole : l.Whole t) (legible : t.Legible)
    (is : t.type = "escaped_string") : t.str?.isSome := by
  obtain ⟨inner, delimited, value⟩ := whole.exists_text is
  rw [value, Option.isSome_map]
  exact legible.text is inner delimited

/-- A token with the type of an exact text has that text. -/
theorem Whole.lexeme_eq {t : Token} (whole : l.Whole t) {text : String}
    (is : t.type = Text.quote text) : t.lexeme = text := by
  obtain ⟨s, -, reaches, type, -⟩ := whole.exists_entry
  have named : s.entry.name = Text.quote text := type.symm.trans is
  cases s with
  | identifier | integer | string | regex => exact absurd named.symm (quote_ne (by decide))
  | exact whole' =>
    obtain rfl := Text.quote_injective named
    exact (String.toList_injective (Shape.exact_of_reach? reaches)).symm

/-- **A token of a source is sound** if it is legible. -/
theorem Whole.isSound {t : Token} (whole : l.Whole t) (legible : t.Legible) : t.IsSound where
  exact _ is := whole.lexeme_eq is
  number is := whole.isSome_int? legible is
  text is := whole.isSome_str? legible is

end Lexicon

/-- Nothing is promised of the tokens that nothing is read for. -/
theorem Token.isSound_of_isReserved {t : Token} (reserved : isReserved t.type) : t.IsSound where
  exact text is := by
    rw [is, Lexicon.isReserved_quote] at reserved
    cases reserved
  number is := by
    rw [is] at reserved
    exact absurd reserved (by decide)
  text is := by
    rw [is] at reserved
    exact absurd reserved (by decide)

/-! ## What the trees of sources are made of -/

/-- A source is legible if the tokens are that a lexicon cuts it into. -/
theorem Language.legible_of_tokenize {L : Language} {g : Grammar} {l : Lexicon}
    (grammar : L.grammar? = .ok g) (vocabulary : g.vocabulary = l.vocabulary) {source : String}
    {ts : List Token} (cut : l.tokenize source.toList = .ok ts) (each : ∀ t ∈ ts, t.Legible) :
    L.Legible source := by
  intro g' ts' grammar' cut'
  obtain rfl := Except.ok.inj (grammar.symm.trans grammar')
  rw [Grammar.tokenize, vocabulary, Lexicon.tokenize_vocabulary, cut] at cut'
  obtain rfl := Except.ok.inj cut'
  exact each

/-- **The tree of a source** is one of the grammar, and its tokens are those that the lexicon has cut
out of the source, and some that nothing is read for. -/
theorem Language.whole_of_parse {L : Language} {g : Grammar} {l : Lexicon}
    (grammar : L.grammar? = .ok g) (vocabulary : g.vocabulary = l.vocabulary) {source : String}
    {t : Tree} (parsed : L.parse source = .ok t) :
    g.Derives (.rule g.entry) t ∧ t.label = none ∧ ∃ ts, g.tokenize source = .ok ts
      ∧ ∀ token ∈ t.tokens, isReserved token.type ∨ token ∈ ts ∧ l.Whole token := by
  obtain ⟨ts, cut, parsed⟩ := (Language.parse_eq_ok grammar vocabulary).1 parsed
  have whole := Lexicon.whole_of_tokensFrom cut
  have cut : g.tokenize source = .ok ts := by
    rw [Grammar.tokenize, vocabulary, Lexicon.tokenize_vocabulary, cut]
    rfl
  obtain ⟨derived, unlabeled, read, -⟩ := Grammar.parseTokens_derivation parsed
  refine ⟨derived, unlabeled, ts, cut, fun token mem => ?_⟩
  cases reserved : isReserved token.type with
  | true => exact .inl rfl
  | false =>
    have inside : token ∈ ts := by
      rw [← read, readTokens, List.mem_filter, reserved]
      exact ⟨mem, rfl⟩
    exact .inr ⟨inside, whole token inside⟩

/-- Its tokens are sound if those of the source are legible. -/
theorem Language.isSound_of_parse {L : Language} {g : Grammar} {l : Lexicon}
    (grammar : L.grammar? = .ok g) (vocabulary : g.vocabulary = l.vocabulary) {source : String}
    {t : Tree} (parsed : L.parse source = .ok t) (legible : L.Legible source) :
    g.Derives (.rule g.entry) t ∧ t.label = none ∧ ∀ token ∈ t.tokens, token.IsSound := by
  obtain ⟨derived, unlabeled, ts, cut, each⟩ := Language.whole_of_parse grammar vocabulary parsed
  refine ⟨derived, unlabeled, fun token mem => ?_⟩
  rcases each token mem with reserved | ⟨inside, whole⟩
  · exact Token.isSound_of_isReserved reserved
  · exact whole.isSound (legible g ts grammar cut token inside)

end Polyglot
