import Polyglot.Language.Error
import Polyglot.Proofs.Assembly.Blaming
import Polyglot.Proofs.B.Spans
import Polyglot.Proofs.Language.Formatting
import Polyglot.Proofs.Lexis.Showing
import Polyglot.Proofs.Parsing.Blame

/-!
# Sources can be shown

Whatever has a span in a source can be shown there: a token is the excerpt at its span, and there is an
excerpt for every error, whether the source cannot be cut into tokens, cannot be read, or cannot be compiled or
assembled (`Language.shows`).

Only where a span starts makes a difference to whether there is an excerpt (`Source.Shown`). Errors of cutting are about a
character that is no blank, those of reading are about the first character of a token or the end of the last one, and
all others start where a token does, or at the start of the source.
-/

namespace Polyglot

open Polyglot.Source

/-- Every source has a start. -/
theorem Source.shown_start (content : String) : Shown content .start := by
  have cut : content.toList = [] ++ content.toList := rfl
  exact shown_after cut (by rintro ⟨⟩)

namespace Grammar

variable {g : Grammar} {source : String} {ts : List Token}

/-- The end of the last token can be shown, or the start of the source if there is no token. -/
theorem shown_endPosition (stands : ∀ t ∈ ts, Stands source t) :
    Shown source (Parser.endPosition ts.toArray) := by
  unfold Parser.endPosition
  rw [List.back?_toArray]
  cases last : ts.getLast? with
  | none => exact shown_start source
  | some t => exact (stands t (List.mem_of_getLast? last)).shown_end

theorem shown_positionAt (stands : ∀ t ∈ ts, Stands source t) (place : Nat) :
    Shown source (Parser.positionAt ts.toArray place) := by
  unfold Parser.positionAt
  rw [List.getElem?_toArray]
  cases found : ts[place]? with
  | none => exact shown_endPosition stands
  | some t => exact (stands t (List.mem_of_getElem? found)).shown_first

/-- **Where an error of parsing is** can be shown. -/
theorem shown_of_parseTokens {e : ParseError} (stands : ∀ t ∈ ts, Stands source t)
    (failed : g.parseTokens ts = .error e) : Shown source e.position := by
  obtain rfl | rfl := error_at_blamed failed
  · exact shown_positionAt stands _
  · exact shown_positionAt stands _

/-- **Where a span starts in the tree** of a source can be shown. -/
theorem shown_of_startsIn {t : Tree} {span : Span} (stands : ∀ t ∈ ts, Stands source t)
    (parsed : g.parseTokens ts = .ok t) (starts : span.StartsIn t) : Shown source span.first := by
  obtain start | ⟨token, mem, same⟩ := starts
  · rw [start]
    exact shown_start source
  · have solid : ∀ t ∈ ts, t.isEmpty = false := fun t mem => (stands t mem).isEmpty
    rw [solidTokens_of_parseTokens parsed solid] at mem
    rw [same]
    exact (stands token mem).shown_first

end Grammar

namespace Language

/-! ## What goes wrong with sources -/

/-- Whether something goes wrong with a source of a language. The tree of a program may be compiled, and that
of a listing assembled, raw or shaken. -/
inductive Fails : Language → String → LanguageError → Prop
  /-- The source cannot be cut into tokens. -/
  | cut {L : Language} {source : String} {e : ReadError} : L.tokenize source = .error e → Fails L source (.read e)
  /-- The source cannot be read. -/
  | read {L : Language} {source : String} {e : ReadError} : L.parse source = .error e → Fails L source (.read e)
  /-- The program cannot be compiled. -/
  | compile {source : String} {raw t : Tree} {e : B.CompileError} : B.language.parse source = .ok raw →
    t = raw ∨ t = B.language.shake raw → B.compile t = .error e → Fails B.language source (.compile e)
  /-- The listing cannot be assembled. -/
  | assembly {source : String} {raw t : Tree} {e : Assembly.AssemblyError} :
    Assembly.language.parse source = .ok raw → t = raw ∨ t = Assembly.language.shake raw →
    Assembly.assemble t = .error e → Fails Assembly.language source (.assembly e)

variable {L : Language} {source : String} {raw t : Tree} {span : Span}

/-- What starts in a raw or shaken tree starts in the raw one. -/
theorem startsIn_raw (either : t = raw ∨ t = L.shake raw) (starts : span.StartsIn t) : span.StartsIn raw := by
  obtain rfl | rfl := either
  · exact starts
  · exact starts.of_shake

section

variable {g : Grammar} {l : Lexicon} (grammar : L.grammar? = .ok g) (vocabulary : g.vocabulary = l.vocabulary)
  (onLines : l.onLines)
include grammar vocabulary onLines

theorem stands_of_tokenize {ts : List Token} (cut : L.tokenize source = .ok ts) : ∀ t ∈ ts, Stands source t := by
  rw [tokenize, grammar] at cut
  replace cut := Except.mapError_eq_ok.1 cut
  rw [vocabulary] at cut
  exact Lexicon.stands_of_tokenize onLines cut

omit onLines in
theorem shown_of_tokenize {e : ReadError} (failed : L.tokenize source = .error e) :
    ∀ span ∈ e.span?, Shown source span.first := by
  rw [tokenize, grammar] at failed
  obtain ⟨lexical, uncut, rfl⟩ := Except.mapError_eq_error.1 failed
  rw [vocabulary] at uncut
  rintro _ ⟨⟩
  exact Lexicon.shown_of_error uncut

theorem shown_of_parse {e : ReadError} (failed : L.parse source = .error e) :
    ∀ span ∈ e.span?, Shown source span.first := by
  have parts : L.parse source = (do (g.parseTokens (← L.tokenize source)).mapError .parse) := by
    rw [parse, tokenize, grammar]
    rfl
  rw [parts] at failed
  obtain failed | ⟨ts, cut, failed⟩ := Except.bind_eq_error.1 failed
  · exact shown_of_tokenize grammar vocabulary failed
  · obtain ⟨grammatical, unread, rfl⟩ := Except.mapError_eq_error.1 failed
    rintro _ ⟨⟩
    exact Grammar.shown_of_parseTokens (stands_of_tokenize grammar vocabulary onLines cut) unread

theorem shown_of_startsIn (parsed : L.parse source = .ok raw) (starts : span.StartsIn raw) :
    Shown source span.first := by
  obtain ⟨ts, cut, parsed⟩ := (Language.parse_eq_ok grammar vocabulary).1 parsed
  rw [← Lexicon.tokenize_vocabulary] at cut
  exact Grammar.shown_of_startsIn (Lexicon.stands_of_tokenize onLines cut) parsed starts

/-- **Errors with a source** can be shown. -/
theorem Fails.shown {e : LanguageError} (fails : L.Fails source e) :
    ∀ span ∈ e.toDiagnostic.span, Shown source span.first := by
  cases fails with
  | cut failed => exact shown_of_tokenize grammar vocabulary failed
  | read failed => exact shown_of_parse grammar vocabulary onLines failed
  | compile parsed either failed =>
    intro span found
    have starts := B.startsIn_of_compile failed span found
    exact shown_of_startsIn grammar vocabulary onLines parsed (startsIn_raw either starts)
  | assembly parsed either failed =>
    rintro _ ⟨⟩
    have starts := Assembly.blames_assemble _ _ failed
    exact shown_of_startsIn grammar vocabulary onLines parsed (startsIn_raw either starts)

end

/-- The tokens of a language are those of a lexicon, all of which are on one line. -/
theorem exists_onLines (mem : L ∈ all) :
    ∃ g l, L.grammar? = .ok g ∧ g.vocabulary = Lexicon.vocabulary l ∧ l.onLines := by
  simp only [all, List.mem_cons, List.not_mem_nil, or_false] at mem
  obtain rfl | rfl | rfl | rfl | rfl := mem
  · exact ⟨B.readGrammar, B.lexicon, B.grammar_eq, rfl, by decide⟩
  · exact ⟨Assembly.readGrammar, Assembly.lexicon, Assembly.grammar_eq, rfl, by decide⟩
  · exact ⟨Expr.readGrammar, Expr.lexicon, Expr.grammar_eq, rfl, by decide⟩
  · obtain ⟨g, grammar, vocabulary⟩ := Pattern.grammar_eq
    exact ⟨g, Pattern.lexicon, grammar, vocabulary, by decide⟩
  · obtain ⟨g, grammar, vocabulary⟩ := Xbnf.grammar_eq
    exact ⟨g, Xbnf.writtenLexicon, grammar, vocabulary, by decide⟩

/-- **What has a span in a source can be shown**, in every language and for every source: the excerpt at a token
is the text of the token, and there is an excerpt at the span of every error. -/
theorem shows (mem : L ∈ all) (source file : String) :
    (∀ tokens, L.tokenize source = .ok tokens →
      ∀ t ∈ tokens, ∃ x, Excerpt.cut file source t.span = .ok x ∧ x.text = t.lexeme)
    ∧ ∀ e, L.Fails source e → ∀ span, e.toDiagnostic.span = some span →
      ∃ x, Excerpt.cut file source span = .ok x := by
  obtain ⟨g, l, grammar, vocabulary, onLines⟩ := exists_onLines mem
  constructor
  · intro tokens cut t among
    exact (stands_of_tokenize grammar vocabulary onLines cut t among).exists_cut file
  · intro e fails span found
    exact fails.shown grammar vocabulary onLines span found file span.last

/-- A listing with carriage returns and an empty line, in which a jump goes nowhere. -/
def straying : String := ".code\r\n\r\n  jumpv nowhere\r\n"

theorem shows_straying :
    Assembly.language ∈ all
      ∧ (∃ tokens, Assembly.language.tokenize straying = .ok tokens ∧ tokens.length = 3
        ∧ ∀ t ∈ tokens, ∃ x, Excerpt.cut "straying.a" straying t.span = .ok x ∧ x.text = t.lexeme)
      ∧ ∃ e span, Assembly.language.Fails straying e ∧ e.toDiagnostic.span = some span
        ∧ ∃ x, Excerpt.cut "straying.a" straying span = .ok x := by
  have mem : Assembly.language ∈ all := by simp [all]
  have three : ((Assembly.lexicon.tokenize straying.toList).toOption).any fun tokens => tokens.length == 3 := by
    decide +kernel
  obtain ⟨tokens, cut, three⟩ := (Option.any_eq_true ..).1 three
  replace cut := Assembly.printable.tokenize_eq_ok.2 (Except.toOption_eq_some.1 cut)
  have refused : ((Assembly.lexicon.tokenize straying.toList).toOption.bind (Assembly.readGrammar.parseAlong 20)).any
      fun raw => (Assembly.assemble raw).toOption.isNone := by
    decide +kernel
  obtain ⟨raw, parsed, refused⟩ := exists_parse Assembly.printable.grammar Assembly.printable.vocabulary 20 refused
  obtain ⟨shown, errors⟩ := shows mem straying "straying.a"
  refine ⟨mem, ⟨tokens, cut, beq_iff_eq.1 three, shown tokens cut⟩, ?_⟩
  cases assembled : Assembly.assemble raw with
  | ok program =>
    rw [assembled] at refused
    cases refused
  | error e =>
    have fails : Assembly.language.Fails straying (.assembly e) := .assembly parsed (.inl rfl) assembled
    exact ⟨_, e.span, fails, rfl, errors _ fails _ rfl⟩

end Language

end Polyglot
