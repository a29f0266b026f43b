import Polyglot.Proofs.Assembly.Printing
import Polyglot.Proofs.Parsing.Agreement
import Polyglot.Proofs.Tree.Shaking

/-!
# Formatting keeps the program

What a language prints for a source that it reads is read again, as the same tokens and the
same tree (`Language.format_preserves`). For this a language must be `Printable`: what is
printed for the tokens of a sentence holds these tokens. Of the languages that are printed
by a layout only B needs to know more of its sentences than that they are made of tokens:
an exclamation mark is printed without a space after it, and what comes after it never
starts with an equals sign (`B.isChain_parts`).
-/

namespace Polyglot

open Polyglot.Lexicon (Blank Laid)

namespace Lexicon

variable {l : Lexicon} {t : Token}

/-- The shape of a whole token, and what it says of its type. -/
theorem Whole.exists_type (h : l.Whole t) :
    ∃ s ∈ l.shapes, l.longest t.lexeme.toList = some (s, t.lexeme.toList.length)
      ∧ (∀ c ∈ t.lexeme.toList.head?, s.starts c) ∧ t.type = s.entry.name := by
  obtain ⟨s, eq, agrees⟩ := h
  obtain ⟨mem, reaches, pos⟩ := (best_longest l t.lexeme.toList).mem _ _ eq
  refine ⟨s, mem, eq, fun c first => ?_, ?_⟩
  · obtain ⟨rest, list⟩ := List.head?_eq_some_iff.1 first
    rw [list] at reaches pos
    exact Shape.starts_of_reach? reaches pos
  · rw [← t.type_unplaced, Token.agrees_iff.1 agrees]
    rfl

end Lexicon

namespace Language

/-- The tokens of a source. -/
def tokenize (l : Language) (source : String) : Except ReadError (List Token) := do
  (← l.grammar?).tokenize source

/-- Whether what a language prints for a sentence holds the tokens of the sentence. -/
structure Printable (L : Language) (g : Grammar) (l : Lexicon) : Prop where
  /-- The language has the grammar. -/
  grammar : L.grammar? = .ok g
  /-- The tokens of the grammar are those of the lexicon. -/
  vocabulary : g.vocabulary = l.vocabulary
  /-- The lexicon is tidy. -/
  tidy : l.tidy
  /-- Printing does not look at places. -/
  blind : ∀ t, L.print t.unplaced = L.print t
  /-- What is printed for a sentence holds its tokens. -/
  laid : ∀ ts t, g.parseTokens ts = .ok t → (∀ t ∈ ts, l.Whole t) →
    Laid l ts (L.print (L.shake t)).toList

/-- Whether one source is another one in a different layout. -/
structure Restates (L : Language) (source text : String) : Prop where
  /-- The tokens are the same. -/
  tokens : ∃ ts us, L.tokenize source = .ok ts ∧ L.tokenize text = .ok us
    ∧ List.Forall₂ (fun t u => t.agrees u) ts us
  /-- The trees are the same. -/
  trees : ∃ t u, L.parse source = .ok t ∧ L.parse text = .ok u ∧ t.agrees u

variable {L : Language} {g : Grammar} {l : Lexicon}

theorem Printable.parse_eq_ok (h : L.Printable g l) {source : String} {t : Tree} :
    L.parse source = .ok t
      ↔ ∃ ts, l.tokenize source.toList = .ok ts ∧ g.parseTokens ts = .ok t :=
  Language.parse_eq_ok h.grammar h.vocabulary

theorem Printable.tokenize_eq_ok (h : L.Printable g l) {source : String} {ts : List Token} :
    L.tokenize source = .ok ts ↔ l.tokenize source.toList = .ok ts := by
  rw [tokenize, h.grammar]
  show g.tokenize source = .ok ts ↔ _
  rw [Grammar.tokenize, Except.mapError_eq_ok, h.vocabulary, Lexicon.tokenize_vocabulary]

/-- A source is read if it is read along the tokens. -/
theorem Printable.exists_parse (h : L.Printable g l) {source : String} (depth : Nat)
    (read : ((l.tokenize source.toList).toOption.bind (g.parseAlong depth)).isSome) :
    ∃ t, L.parse source = .ok t := by
  rw [← Option.any_true] at read
  obtain ⟨t, parsed, -⟩ := Language.exists_parse h.grammar h.vocabulary depth read
  exact ⟨t, parsed⟩

/-- **Formatting** restates what a printable language reads, and does it once and for
all. -/
theorem Printable.format (h : L.Printable g l) {source : String} {t : Tree}
    (parsed : L.parse source = .ok t) :
    ∃ text, L.format source = .ok text ∧ L.Restates source text ∧ L.format text = .ok text := by
  obtain ⟨ts, cut, parsed'⟩ := h.parse_eq_ok.1 parsed
  have whole := Lexicon.whole_of_tokensFrom cut
  obtain ⟨us, cut', agree⟩ := Lexicon.tokenize_laid h.tidy whole (h.laid ts t parsed' whole)
  obtain ⟨u, parsed'', same⟩ := Grammar.parseTokens_agrees (forall₂_agrees_iff.1 agree) parsed'
  have again := h.parse_eq_ok.2 ⟨us, cut', parsed''⟩
  have printed : L.print (L.shake u) = L.print (L.shake t) := by
    rw [← h.blind, shake, ← Shake.shake_unplaced, ← same, Shake.shake_unplaced, h.blind, shake]
  refine ⟨L.print (L.shake t), ?_, ⟨?_, ?_⟩, ?_⟩
  · rw [Language.format, parseShaken, parsed]
    rfl
  · exact ⟨ts, us, h.tokenize_eq_ok.2 cut, h.tokenize_eq_ok.2 cut', agree⟩
  · exact ⟨t, u, parsed, again, (Tree.agrees_iff t u).2 same⟩
  · rw [Language.format, parseShaken, again]
    exact congrArg Except.ok printed

/-- A language that is printed by a layout is printable if the tokens of its sentences can be
told apart in print. -/
theorem printable_of_layout {y : Layout} (grammar : L.grammar? = .ok g)
    (vocabulary : g.vocabulary = l.vocabulary) (print : L.print = y.print)
    (unchained : L.shaker.chain = []) (tidy : l.tidy) (blind : y.Blind)
    (blank : Blank y.indentUnit.toList)
    (parts : ∀ ts t, g.parseTokens ts = .ok t → (∀ t ∈ ts, l.Whole t) → ts.IsChain (y.Parts l)) :
    L.Printable g l where
  grammar := grammar
  vocabulary := vocabulary
  tidy := tidy
  blind t := by rw [print, blind.print_unplaced]
  laid ts t parsed whole := by
    have solid : (L.shake t).solidTokens = ts := by
      rw [Tree.solidTokens, shake, Shake.tokens_shake unchained]
      exact Grammar.solidTokens_of_parseTokens parsed fun t mem => (whole t mem).isEmpty
    rw [print, Layout.print_eq, solid]
    exact Layout.laid_printTokens tidy blank whole (parts ts t parsed whole)

end Language

/-! ## The languages -/

/-- Tokens are told apart one by one if any two of them are. -/
theorem isChain_of_forall {y : Layout} {l : Lexicon} {ts : List Token} (whole : ∀ t ∈ ts, l.Whole t)
    (parts : ∀ t u, l.Whole t → l.Whole u → y.Parts l t u) : ts.IsChain (y.Parts l) :=
  List.Pairwise.isChain <| List.pairwise_of_forall_mem_list fun t mem u mem' =>
    parts t u (whole t mem) (whole u mem')

namespace Expr

theorem exists_printable : ∃ g, language.Printable g lexicon := by
  have tidy : lexicon.tidy := by decide
  refine ⟨readGrammar, Language.printable_of_layout (y := {}) grammar_eq rfl rfl rfl tidy
    ⟨fun _ _ => rfl, fun _ => rfl, fun _ => rfl, fun _ => rfl, fun _ => rfl⟩ (by decide)
    fun ts t _ whole => isChain_of_forall whole fun t u whole _ => ?_⟩
  refine Layout.parts_of_texts ["(", "["] [")", "]", ",", ";", ":"] tidy whole
    (by decide) (by decide) fun noSpace => ?_
  simpa [Decidable.imp_iff_not_or, or_assoc] using noSpace

end Expr

namespace Pattern

theorem exists_printable : ∃ g, language.Printable g lexicon := by
  obtain ⟨g, grammar, vocabulary⟩ := grammar_eq
  have tidy : lexicon.tidy := by decide
  refine ⟨g, Language.printable_of_layout (y := layout) grammar vocabulary rfl rfl tidy
    ⟨fun _ _ => rfl, fun _ => rfl, fun _ => rfl, fun _ => rfl, fun _ => rfl⟩ (by decide)
    fun ts t _ whole => isChain_of_forall whole fun t u whole _ => ?_⟩
  refine Layout.parts_of_texts ["("] [")", "*", "+", "?"] tidy whole
    (by decide) (by decide) fun noSpace => ?_
  simpa [layout, Decidable.imp_iff_not_or, or_assoc] using noSpace

end Pattern

namespace Xbnf

theorem exists_printable : ∃ g, language.Printable g writtenLexicon := by
  obtain ⟨g, grammar, vocabulary⟩ := grammar_eq
  have tidy : writtenLexicon.tidy := by decide
  refine ⟨g, Language.printable_of_layout (y := layout) grammar vocabulary rfl rfl tidy
    ⟨fun _ _ => rfl, fun _ => rfl, fun _ => rfl, fun _ => rfl, fun _ => rfl⟩ (by decide)
    fun ts t _ whole => isChain_of_forall whole fun t u whole _ => ?_⟩
  refine Layout.parts_of_texts ["(", "<", "="] [")", ">", ";", "=", "?", "*", "+"] tidy whole
    (by decide) (by decide) fun noSpace => ?_
  simpa [layout, Decidable.imp_iff_not_or, or_assoc] using noSpace

end Xbnf

namespace Assembly

theorem printable : language.Printable readGrammar lexicon where
  grammar := grammar_eq
  vocabulary := rfl
  tidy := tidy_lexicon
  blind := print_unplaced
  laid ts t parsed whole := by
    obtain ⟨derived, unlabeled, -⟩ := Grammar.parseTokens_sound parsed
    have solid : (language.shake t).solidTokens = ts := by
      rw [Tree.solidTokens, Language.shake, Shake.tokens_shake rfl]
      exact Grammar.solidTokens_of_parseTokens parsed fun t mem => (whole t mem).isEmpty
    have laid := laid_print (isSource_shake derived unlabeled) (by rwa [solid])
    rwa [solid] at laid

end Assembly

namespace B

theorem tidy_lexicon : lexicon.tidy := by decide

/-- The only thing that goes on with an exclamation mark is an equals sign. -/
theorem continues_not {c : Char} (eq : lexicon.continues ['!'] c) : c = '=' := by
  obtain ⟨s, mem, eq⟩ := List.any_eq_true.1 eq
  by_cases is : s = .exact "!="
  · subst is
    have isPrefix : ['!', c] <+: ['!', '='] := List.isPrefixOf_iff_prefix.1 eq
    simpa using isPrefix
  · have closed : ({ lexicon with shapes := lexicon.shapes.filter (· != .exact "!=") } : Lexicon).isClosed
        ['!'] := by decide
    have no := Lexicon.not_continues_of_isClosed closed c
    have yes : Lexicon.continues { lexicon with shapes := lexicon.shapes.filter (· != .exact "!=") }
        ['!'] c :=
      List.any_eq_true.2 ⟨s, List.mem_filter.2 ⟨mem, bne_iff_ne.2 is⟩, eq⟩
    rw [no] at yes
    cases yes

/-- An exclamation mark has a type of its own. -/
theorem type_not {t : Token} (whole : lexicon.Whole t) (is : t.lexeme = "!") :
    t.type ∈ fringes.left := by
  have alone : lexicon.longest "!".toList = some (.exact "!", 1) := by decide
  obtain ⟨s, -, longest, -, type⟩ := whole.exists_type
  rw [is, alone] at longest
  obtain ⟨rfl, -⟩ := Prod.mk.inj (Option.some.inj longest)
  rw [type]
  exact List.mem_singleton.2 rfl

/-- What starts with an equals sign is of one of two types. -/
theorem type_equals {t : Token} (whole : lexicon.Whole t) (starts : '=' ∈ t.lexeme.toList.head?) :
    t.type ∈ fringes.right := by
  have only : lexicon.shapes.all fun s => !s.starts '=' || fringes.right.contains s.entry.name := by
    decide
  obtain ⟨s, mem, -, first, type⟩ := whole.exists_type
  have here := List.all_eq_true.1 only s mem
  rw [first '=' starts] at here
  rw [type]
  exact List.contains_iff_mem.1 here

/-- In a sentence an exclamation mark is not followed by an equals sign. -/
theorem isChain_parts {g : Grammar} (checked : fringes.check g) {ts : List Token} {t : Tree}
    (parsed : g.parseTokens ts = .ok t) (whole : ∀ t ∈ ts, lexicon.Whole t) :
    ts.IsChain (layout.Parts lexicon) := by
  have chain := Grammar.isChain_of_parseTokens checked parsed
  refine chain.imp_of_mem_imp fun t u mem mem' apart => ?_
  by_cases is : t.lexeme = "!"
  · intro _ c first
    rw [is]
    refine Bool.eq_false_iff.2 fun goesOn => apart ⟨type_not (whole t mem) is, ?_⟩
    obtain rfl := continues_not goesOn
    exact type_equals (whole u mem') first
  · refine Layout.parts_of_texts ["(", "["] ["(", ")", "]", ",", ";"]
      tidy_lexicon (whole t mem) (by decide) (by decide) fun noSpace => ?_
    dsimp only [layout] at noSpace
    split at noSpace
    · rename_i call
      rw [beq_iff_eq.1 (Bool.and_eq_true_iff.1 call).1]
      exact .inr (List.mem_cons_self ..)
    · rw [Bool.and_eq_false_iff, Bool.not_eq_false', Bool.not_eq_false', List.contains_iff_mem,
        List.contains_iff_mem] at noSpace
      simp only [List.mem_cons, List.not_mem_nil, or_false] at noSpace ⊢
      grind

theorem exists_printable : ∃ g, language.Printable g lexicon :=
  ⟨readGrammar, Language.printable_of_layout (y := layout) grammar_eq rfl rfl rfl tidy_lexicon
    ⟨fun _ _ => rfl, fun _ => rfl, fun _ => rfl, fun _ => rfl, fun _ => rfl⟩ (by decide)
    fun _ _ parsed whole => isChain_parts check_fringes parsed whole⟩

end B

/-- **Formatting keeps the program**, in every language and for every source that the language
reads: the formatted source has the same tokens and the same tree, and formatting it again
changes nothing. -/
theorem Language.format_preserves {L : Language} (mem : L ∈ Language.all) {source : String}
    {t : Tree} (parsed : L.parse source = .ok t) :
    ∃ text, L.format source = .ok text ∧ L.Restates source text ∧ L.format text = .ok text := by
  simp only [Language.all, List.mem_cons, List.not_mem_nil, or_false] at mem
  rcases mem with rfl | rfl | rfl | rfl | rfl
  · obtain ⟨g, printable⟩ := B.exists_printable
    exact printable.format parsed
  · exact Assembly.printable.format parsed
  · obtain ⟨g, printable⟩ := Expr.exists_printable
    exact printable.format parsed
  · obtain ⟨g, printable⟩ := Pattern.exists_printable
    exact printable.format parsed
  · obtain ⟨g, printable⟩ := Xbnf.exists_printable
    exact printable.format parsed

/-- A loop, its label and its jump on one line. -/
theorem format_preserves_loop :
    Assembly.language ∈ Language.all
      ∧ (∃ t, Assembly.language.parse ".code loop:jumpv loop" = .ok t)
      ∧ ∃ text, Assembly.language.format ".code loop:jumpv loop" = .ok text
        ∧ Assembly.language.Restates ".code loop:jumpv loop" text
        ∧ Assembly.language.format text = .ok text := by
  have mem : Assembly.language ∈ Language.all := by simp [Language.all]
  obtain ⟨t, parsed⟩ : ∃ t, Assembly.language.parse ".code loop:jumpv loop" = .ok t :=
    Assembly.printable.exists_parse 20 (by decide)
  exact ⟨mem, ⟨t, parsed⟩, Language.format_preserves mem parsed⟩

end Polyglot
