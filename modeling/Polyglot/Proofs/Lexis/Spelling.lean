import Polyglot.Proofs.Lexis.Printing

/-!
# Spelling tokens

The other way round: what is cut into one token of a shape. A word is an initial with word
characters after it (`Shape.reach?_identifier`), the decimal form of a number is an integer
with this value (`Shape.reach?_repr`, `value?_repr`), and a text in quotes is a string with
the text as its value (`Shape.reach?_quote`, `value?_quote`). If no other shape has matches
that start in the same way, that is all there is to the longest match
(`longest_of_alone`).

Texts that hold whole tokens (`Holds`) are put together piece by piece, if each piece can be told
apart from the next.
-/

namespace Polyglot

open Regex.Program Vocabulary

namespace Lexicon

/-! ## Tokens of shapes -/

/-- The token of a shape with a text. -/
def Shape.token (s : Shape) (text : String) : Token where
  type := s.entry.name
  lexeme := text
  literal := s.entry.rule.value? text

variable {l : Lexicon} {s : Shape} {text : String}

@[simp] theorem Shape.type_token : (s.token text).type = s.entry.name := rfl

@[simp] theorem Shape.lexeme_token : (s.token text).lexeme = text := rfl

@[simp] theorem Shape.literal_token : (s.token text).literal = s.entry.rule.value? text := rfl

theorem whole_token (found : l.longest text.toList = some (s, text.toList.length)) :
    l.Whole (s.token text) := by
  refine ⟨s, found, ?_⟩
  simp [tokenOf, Token.agrees]

/-- The shape of a whole token, which gives it its type and its value. -/
theorem Whole.exists_entry {t : Token} (whole : l.Whole t) :
    ∃ s ∈ l.shapes, s.reach? t.lexeme.toList = some t.lexeme.toList.length
      ∧ t.type = s.entry.name ∧ t.literal = s.entry.rule.value? t.lexeme := by
  obtain ⟨s, longest, agrees⟩ := whole
  obtain ⟨mem, reaches, -⟩ := (best_longest l t.lexeme.toList).mem _ _ longest
  simp only [Token.agrees, tokenOf, Bool.and_eq_true, beq_iff_eq, String.ofList_toList] at agrees
  exact ⟨s, mem, reaches, agrees.1.1, agrees.2⟩

/-- If a shape matches all of a text, and no match of another shape starts like it, then it is
the shape of the longest match. -/
theorem longest_of_alone {c : Char} {rest : List Char} (mem : s ∈ l.shapes)
    (reaches : s.reach? (c :: rest) = some (rest.length + 1))
    (alone : ∀ s' ∈ l.shapes, s'.starts c → s' = s) :
    l.longest (c :: rest) = some (s, rest.length + 1) := by
  have best := best_longest l (c :: rest)
  obtain ⟨s', n, found, le⟩ := best.le s mem _ reaches (Nat.succ_ne_zero _)
  obtain ⟨mem', reaches', pos⟩ := best.mem s' n found
  obtain rfl := alone s' mem' (Shape.starts_of_reach? reaches' pos)
  have ge := Shape.reach?_le reaches'
  rw [found, Nat.le_antisymm ge le, List.length_cons]

/-- The token for exactly one text. -/
def mark (text : String) : Token := (Shape.exact text).token text

/-- The token of a name. -/
def nameToken (name : String) : Token := Shape.identifier.token name

/-- The token of a number. -/
def numberToken (n : Nat) : Token := Shape.integer.token n.repr

/-- The token of a text in quotes. -/
def textToken (text : String) : Token := Shape.string.token (Text.quote text)

theorem isReserved_quote (text : String) : isReserved (Text.quote text) = false := by
  have first : (Text.quote text).toList.head? = some '"' := by
    rw [Text.quote, String.toList_ofList]
    rfl
  have differs {other : String} (ne : other.toList.head? ≠ some '"') : Text.quote text ≠ other := by
    rintro rfl
    exact ne first
  rw [isReserved, beq_false_of_ne (differs (by decide)), beq_false_of_ne (differs (by decide))]
  rfl

/-! ## Words and numbers -/

theorem run_eq_length {set : CharSet} {text : List Char} :
    run set text = text.length ↔ ∀ c ∈ text, set.contains c := by
  induction text with
  | nil => simp [run]
  | cons c text ih =>
    by_cases mem : set.contains c
    · simp [run, mem, ih]
    · simp [run, mem]

theorem reachOf_eq_length {first others : CharSet} {c : Char} {rest : List Char} :
    reachOf first others (c :: rest) = some (rest.length + 1)
      ↔ first.contains c ∧ ∀ d ∈ rest, others.contains d := by
  by_cases mem : first.contains c
  · simp [reachOf, mem, run_eq_length]
  · simp [reachOf, mem]

/-- **Words** are the texts that are one identifier. -/
theorem Shape.reach?_identifier {c : Char} {rest : List Char} :
    Shape.identifier.reach? (c :: rest) = some (rest.length + 1)
      ↔ initials.contains c ∧ ∀ d ∈ rest, wordParts.contains d :=
  reachOf_eq_length

/-- No word starts with a digit. -/
theorem not_initials_of_digits {c : Char} (mem : digits.contains c) : ¬ initials.contains c := by
  simp only [digits, initials, CharSet.contains, List.any_cons, List.any_nil, Bool.or_false,
    Bool.or_eq_true, Bool.and_eq_true, decide_eq_true_eq] at mem ⊢
  omega

/-- Whether a text is a word. -/
def IsWord (text : String) : Prop :=
  ∃ c rest, text.toList = c :: rest ∧ initials.contains c ∧ ∀ d ∈ rest, wordParts.contains d

/-- An exact text that reaches over all of a text is this text. -/
theorem Shape.exact_of_reach? {whole : String} {text : List Char}
    (reaches : (Shape.exact whole).reach? text = some text.length) : whole.toList = text := by
  change reachExactly whole.toList text = some text.length at reaches
  unfold reachExactly at reaches
  split at reaches
  · rename_i isPrefix
    exact (List.isPrefixOf_iff_prefix.1 isPrefix).eq_of_length (Option.some.inj reaches)
  · cases reaches

/-- **A word is a name** if it is none of the exact texts. -/
theorem longest_word (has : .identifier ∈ l.shapes) (word : IsWord text)
    (other : .exact text ∉ l.shapes) :
    l.longest text.toList = some (.identifier, text.toList.length) := by
  obtain ⟨c, rest, list, initial, parts⟩ := word
  have reaches := Shape.reach?_identifier.2 ⟨initial, parts⟩
  have best := best_longest l (c :: rest)
  obtain ⟨s, n, found, le⟩ := best.le .identifier has _ reaches (Nat.succ_ne_zero _)
  obtain ⟨mem, reaches', pos⟩ := best.mem s n found
  have same : n = rest.length + 1 := Nat.le_antisymm (Shape.reach?_le reaches') le
  subst same
  have starts := Shape.starts_of_reach? reaches' pos
  rw [list, found]
  suffices s = .identifier by rw [this, List.length_cons]
  have differs (mark : Char) (no : initials.contains mark = false) : c ≠ mark := by
    rintro rfl
    rw [no] at initial
    cases initial
  cases s with
  | identifier => rfl
  | string => exact absurd (beq_iff_eq.1 starts) (differs '"' (by decide))
  | regex => exact absurd (beq_iff_eq.1 starts) (differs '/' (by decide))
  | integer => exact absurd initial (not_initials_of_digits starts)
  | exact whole =>
    have same : whole.toList = c :: rest := Shape.exact_of_reach? reaches'
    rw [← String.toList_inj.1 (list.trans same.symm)] at mem
    exact absurd mem other

/-- The exact texts of a lexicon that start like a word. -/
def keywords (l : Lexicon) : List String :=
  l.shapes.filterMap fun s =>
    match s with
    | .exact text => if text.toList.head?.any initials.contains then some text else none
    | _ => none

/-- A word that is an exact text is a keyword. -/
theorem exact_not_mem (word : IsWord text) (other : text ∉ l.keywords) : .exact text ∉ l.shapes := by
  intro mem
  obtain ⟨c, rest, list, initial, -⟩ := word
  refine other (List.mem_filterMap.2 ⟨_, mem, ?_⟩)
  dsimp only
  rw [list, if_pos (by simpa using initial)]

/-- Whether nothing but a number starts with a digit. -/
def digitsAlone (l : Lexicon) : Bool :=
  l.shapes.all fun s => s == .integer || (List.range 10).all fun i => !s.starts (Char.ofNat (48 + i))

theorem eq_integer_of_starts (only : l.digitsAlone) {c : Char} (isDigit : digits.contains c)
    (mem : s ∈ l.shapes) (starts : s.starts c) : s = .integer := by
  rcases Bool.or_eq_true_iff.1 (List.all_eq_true.1 only s mem) with same | never
  · exact beq_iff_eq.1 same
  · have bounds : 48 ≤ c.toNat ∧ c.toNat ≤ 57 := by
      simpa [digits, CharSet.contains] using isDigit
    have here := List.all_eq_true.1 never (c.toNat - 48) (List.mem_range.2 (by omega))
    rw [Nat.add_sub_cancel' bounds.1, Char.ofNat_toNat, starts] at here
    cases here

/-- **Digits are a number** if nothing else starts with a digit. -/
theorem longest_digits (has : .integer ∈ l.shapes) (only : l.digitsAlone) {c : Char}
    {rest : List Char} (isDigit : digits.contains c) (each : ∀ d ∈ rest, digits.contains d) :
    l.longest (c :: rest) = some (.integer, rest.length + 1) :=
  longest_of_alone has (reachOf_eq_length.2 ⟨isDigit, each⟩) fun _ mem starts =>
    eq_integer_of_starts only isDigit mem starts

theorem contains_digits {c : Char} (isDigit : c.isDigit) : digits.contains c := by
  rw [Char.isDigit_iff_toNat] at isDigit
  simpa [digits, CharSet.contains] using isDigit

theorem digits_repr (n : Nat) : ∃ c rest, n.repr.toList = c :: rest ∧ digits.contains c
    ∧ ∀ d ∈ rest, digits.contains d := by
  obtain ⟨c, rest, list⟩ := List.exists_cons_of_ne_nil (Nat.toDigits_ne_nil (n := n) (b := 10))
  have each (d : Char) (mem : d ∈ c :: rest) : digits.contains d :=
    contains_digits (Nat.isDigit_of_mem_toDigits (b := 10) (n := n) (by decide) (by decide)
      (list ▸ mem))
  exact ⟨c, rest, by rw [Nat.toList_repr, list], List.forall_mem_cons.1 each⟩

theorem whole_numberToken (has : .integer ∈ l.shapes) (only : l.digitsAlone) (n : Nat) :
    l.Whole (numberToken n) := by
  obtain ⟨c, rest, list, isDigit, isDigits⟩ := digits_repr n
  refine whole_token ?_
  rw [list]
  exact longest_digits has only isDigit isDigits

/-- Reading digits and making a number of them is the same. -/
theorem digitsValue?_eq {text : List Char} (each : ∀ c ∈ text, c.isDigit) (value : Nat) :
    Text.digitsValue? value text = some (Nat.ofDigitChars 10 text value) := by
  induction text generalizing value with
  | nil => simp [Text.digitsValue?]
  | cons c text ih =>
    obtain ⟨first, others⟩ := List.forall_mem_cons.1 each
    have read : Text.digitValue? c = some (c.toNat - '0'.toNat) :=
      if_pos (Char.isDigit_iff_toNat.1 first)
    rw [Text.digitsValue?, read, Nat.ofDigitChars_cons, Nat.mul_comm]
    exact ih others _

theorem natural?_repr (n : Nat) : Text.natural? n.repr.toList = some n := by
  have each : ∀ c ∈ n.repr.toList, c.isDigit := fun c mem =>
    Nat.isDigit_of_mem_toDigits (by decide) (by decide) (Nat.toList_repr ▸ mem)
  have read := digitsValue?_eq each 0
  rw [Nat.toList_repr, Nat.ofDigitChars_ten_toDigits, ← Nat.toList_repr] at read
  obtain ⟨c, rest, list, -⟩ := digits_repr n
  rw [list] at read ⊢
  exact read

/-- **The decimal form** of a number has its value, if that is one of 64 bits with a sign. -/
theorem value?_repr (n : Nat) :
    Shape.integer.entry.rule.value? n.repr
      = if n < Text.bitRange 63 then some (.int n) else none := by
  have bounded (half : Nat) : (do
      let n ← some (Int.ofNat n)
      let half : Int := half
      if -half ≤ n ∧ n < half then some n else none) = if n < half then some (n : Int) else none := by
    simp only [Option.bind_eq_bind, Option.bind_some, Int.ofNat_eq_natCast]
    by_cases small : n < half
    · rw [if_pos small, if_pos (by omega)]
    · rw [if_neg small, if_neg (by omega)]
  have signed : Text.signed? 64 n.repr.toList
      = if n < Text.bitRange 63 then some (n : Int) else none := by
    obtain ⟨c, rest, list, isDigit, -⟩ := digits_repr n
    have value := natural?_repr n
    rw [list] at value ⊢
    unfold Text.signed?
    -- the first digit is no sign
    split
    · rename_i eq
      obtain ⟨rfl, -⟩ := List.cons.inj eq
      cases isDigit
    · rename_i eq
      obtain ⟨rfl, -⟩ := List.cons.inj eq
      cases isDigit
    · rw [value]
      exact bounded (Text.bitRange (64 - 1))
  show (Text.signed? 64 n.repr.toList).map _ = _
  rw [signed]
  split <;> rfl

/-! ## Texts in quotes -/

/-- The first quote that is not escaped is that at the end. -/
theorem closing_escape (text : List Char) :
    closing '"' false (Text.escape text ++ ['"']) = some ((Text.escape text).length + 1) := by
  induction text with
  | nil => rfl
  | cons c text ih =>
    show closing '"' false (Text.escapeChar c ++ Text.escape text ++ ['"'])
      = some ((Text.escapeChar c ++ Text.escape text).length + 1)
    unfold Text.escapeChar
    split
    case h_7 feed _ _ _ bar mark =>
      have noBar : (c == '\\') = false := beq_eq_false_iff_ne.2 bar
      rw [List.append_assoc, List.singleton_append, closing, if_neg mark, if_neg feed, noBar, ih]
      rfl
    all_goals simp [closing, ih]

theorem Shape.reach?_quote (text : String) :
    Shape.string.reach? (Text.quote text).toList = some (Text.quote text).toList.length := by
  have reach (text : List Char) : Shape.string.reach? text = reachBetween '"' text := rfl
  rw [Text.quote, String.toList_ofList, List.cons_append, reach, reachBetween, if_pos rfl,
    closing_escape]
  simp

/-- If only texts in quotes start with a quotation mark, each is one token. -/
theorem whole_textToken (has : .string ∈ l.shapes)
    (only : l.shapes.all fun s => !s.starts '"' || s == .string) (text : String) :
    l.Whole (textToken text) := by
  refine whole_token ?_
  have reaches := Shape.reach?_quote text
  obtain ⟨rest, list⟩ : ∃ rest, (Text.quote text).toList = '"' :: rest := by
    rw [Text.quote, String.toList_ofList]
    exact ⟨_, rfl⟩
  rw [list] at reaches ⊢
  refine longest_of_alone has reaches fun s mem starts => ?_
  have here := List.all_eq_true.1 only s mem
  rw [starts] at here
  exact beq_iff_eq.1 here

/-- **The value of a text in quotes** is the text. -/
theorem value?_quote (text : String) :
    Shape.string.entry.rule.value? (Text.quote text) = some (.str text) := by
  have inner : delimited? '"' (Text.quote text).toList = some (Text.escape text.toList) := by
    rw [Text.quote, String.toList_ofList, List.cons_append]
    simp [delimited?]
  show (do
    let inner ← delimited? '"' (Text.quote text).toList
    return Literal.str (String.ofList (← Text.unescape inner))) = _
  rw [inner]
  show (do return Literal.str (String.ofList (← Text.unescape (Text.escape text.toList)))) = _
  rw [Text.unescape_escape]
  simp

theorem str?_textToken (text : String) : (textToken text).str? = some text := by
  unfold Token.str? textToken
  rw [Shape.literal_token, value?_quote]

/-- Whatever comes after a text in quotes, its shape ends at the last quote. -/
theorem Shape.reach?_quote_append (text : String) (rest : List Char) :
    Shape.string.reach? ((Text.quote text).toList ++ rest)
      = some (Text.quote text).toList.length := by
  have reaches := Shape.reach?_quote text
  have ne : (Text.quote text).toList ≠ [] := by simp [Text.quote]
  rcases Shape.string.reach?_append ne rest with eq | ⟨-, next⟩
  · rw [eq, reaches]
  · cases rest with
    | nil => rw [List.append_nil, reaches]
    | cons c rest =>
      -- Nothing goes on with a text whose last quote is there.
      have goes := next c rfl
      rw [Shape.continues, reaches, Option.isNone_some, Bool.and_false] at goes
      cases goes

/-- The entry for texts in quotes takes the whole of such a text, counted in bytes as well
as in characters. -/
theorem matchBytes?_quote (text rest : String) :
    Shape.string.entry.matchBytes? (Text.quote text ++ rest)
      = some (Text.quote text).utf8ByteSize := by
  simp only [Entry.matchBytes?, String.toList_append, Shape.matchLength?_entry,
    Shape.reach?_quote_append, Option.map_some, List.take_left, String.ofList_toList]

/-- **A text in quotes survives being cut into tokens.** The entry for such texts takes
exactly the text in quotes, whatever comes after it, and the value it gives is the text.
So escaping can be undone, and no two texts share the name of an entry. -/
theorem quote_survives :
    ∃ e, builtinEntries.find? (·.name == "escaped_string") = some e
      ∧ (∀ text rest : String,
        e.matchLength? (Text.quote text ++ rest).toList = some (Text.quote text).length
          ∧ e.matchBytes? (Text.quote text ++ rest) = some (Text.quote text).utf8ByteSize
          ∧ e.rule.value? (Text.quote text) = some (.str text))
      ∧ (∀ text, Text.unescape (Text.escape text) = some text)
      ∧ Function.Injective fun text => (Entry.exact text).name := by
  refine ⟨Shape.string.entry, ?found, fun text rest => ⟨?chars, matchBytes?_quote text rest,
    value?_quote text⟩, Text.unescape_escape, fun s t eq => Text.quote_injective eq⟩
  case found =>
    rw [builtinEntries_eq]
    rfl
  case chars =>
    rw [String.toList_append, Shape.matchLength?_entry, Shape.reach?_quote_append,
      String.length_toList]

/-! ## Texts that hold whole tokens -/

/-- Whether a text holds tokens, each of which is whole. -/
structure Holds (l : Lexicon) (text : String) (ts : List Token) : Prop where
  /-- The text holds the tokens. -/
  laid : Laid l ts text.toList
  /-- The tokens are whole. -/
  whole : ∀ t ∈ ts, l.Whole t

namespace Holds

variable {more : String} {ts us : List Token}

theorem empty : l.Holds "" [] := ⟨.done nofun, nofun⟩

theorem single {t : Token} (whole : l.Whole t) : l.Holds t.lexeme [t] := by
  have laid : Laid l [t] (t.lexeme.toList ++ []) := .next nofun (.done nofun)
  rw [List.append_nil] at laid
  exact ⟨laid, List.forall_mem_singleton.2 whole⟩

/-- What comes first is told apart from what comes second by how the one starts or by how the
other ends. -/
theorem append (h : l.Holds text ts) (h' : l.Holds more us)
    (apart : more.toList.head?.all l.isOpening ∨ ts.getLast?.all fun t => l.isClosed t.lexeme.toList)
    (tidy : l.tidy) :
    l.Holds (text ++ more) (ts ++ us) := by
  refine ⟨?_, List.forall_mem_append.2 ⟨h.whole, h'.whole⟩⟩
  rw [String.toList_append]
  refine h.laid.append h.whole h'.laid fun t last c first => ?_
  rcases apart with opening | closed
  · exact (h.whole t (List.mem_of_mem_getLast? last)).not_continues_of_isOpening tidy
      ((Option.all_eq_true ..).1 opening c first)
  · exact not_continues_of_isClosed ((Option.all_eq_true ..).1 closed t last) c

theorem spaced (h : l.Holds text ts) : l.Holds (" " ++ text) ts := by
  refine ⟨?_, h.whole⟩
  rw [String.toList_append]
  exact h.laid.after_blank _ (by decide)

/-- A blank tells any two apart. -/
theorem append_spaced (h : l.Holds text ts) (h' : l.Holds more us) (tidy : l.tidy) :
    l.Holds (text ++ (" " ++ more)) (ts ++ us) := by
  refine ⟨?_, List.forall_mem_append.2 ⟨h.whole, h'.whole⟩⟩
  rw [String.toList_append]
  refine h.laid.append h.whole h'.spaced.laid fun t last c first => ?_
  rw [String.toList_append] at first
  obtain rfl := Option.some.inj first
  exact (h.whole t (List.mem_of_mem_getLast? last)).not_continues_blank tidy (by decide)

theorem intercalate {α : Type} {textOf : α → String} {tokensOf : α → List Token} {gap : String}
    (blank : Blank gap.toList) (ne : gap.toList ≠ []) {items : List α}
    (each : ∀ a ∈ items, l.Holds (textOf a) (tokensOf a)) (tidy : l.tidy) :
    l.Holds (gap.intercalate (items.map textOf)) (items.flatMap tokensOf) := by
  have whole : ∀ ts ∈ items.map tokensOf, ∀ t ∈ ts, l.Whole t :=
    List.forall_mem_map.2 fun a mem => (each a mem).whole
  refine ⟨?_, fun t mem => ?_⟩
  · rw [String.toList_intercalate, List.flatMap_def]
    refine Laid.intercalate _ tidy blank ne whole ?_
    rw [List.map_map, List.forall₂_map_left_iff, List.forall₂_map_right_iff, List.forall₂_same]
    exact fun a mem => (each a mem).laid
  · obtain ⟨a, mem, mem'⟩ := List.mem_flatMap.1 mem
    exact (each a mem).whole t mem'

/-- **A text that holds whole tokens** is cut into them, up to where they stand. -/
theorem tokenize (h : l.Holds text ts) (tidy : l.tidy) :
    ∃ us, l.tokenize text.toList = .ok us ∧ List.Forall₂ (fun t u => t.agrees u) ts us :=
  tokenize_laid tidy h.whole h.laid

end Holds

end Lexicon

end Polyglot
