import Polyglot.Proofs.Language.Grammars
import Polyglot.Proofs.Lexis.Ordering

/-!
# The notation reads itself

Written grammars are read with a grammar that is built from declarations, and the same grammar
is also the first of those that are read: the notation is a language, given by its own written
form. The two have the same rules in the same order (`Xbnf.exists_grammars`). Their vocabularies
have the same entries in different orders: the one lists the named entries first and the signs
after them, the other takes them up as they come in the written form.

Parsing asks a grammar for nothing but its rules (`Grammar.parseTokens_congr`), and cutting a
source into tokens does not depend on the order of a vocabulary that is clear
(`Lexicon.tokenize_vocabulary_congr`). So the two grammars read the same trees in all sources,
and fail in the same way where there is none (`Xbnf.parse_eq_parse`).
-/

namespace Polyglot

/-! ## What parsing depends on -/

namespace Parser

variable {g g' : Grammar} {tokens : Array Token}

theorem symbolName_congr (rules : g.rules = g'.rules) (s : Symbol) :
    g.symbolName s = g'.symbolName s := by
  cases s with
  | rule id => rw [Grammar.symbolName, Grammar.symbolName, Grammar.ruleName, Grammar.ruleName, rules]
  | terminal name => rfl

theorem term_congr (rules : g.rules = g'.rules) (rule : Nat → Step Tree) (t : Term) :
    term g tokens rule t = term g' tokens rule t := by
  funext s
  simp only [term, symbolName_congr rules]

theorem sequence_congr (rules : g.rules = g'.rules) (rule : Nat → Step Tree) (terms : List Term)
    (s : State) : sequence g tokens rule terms s = sequence g' tokens rule terms s := by
  induction terms generalizing s with
  | nil => rfl
  | cons t terms ih => simp only [sequence, term_congr rules, ih]

theorem longest_congr (rules : g.rules = g'.rules) (rule : Nat → Step Tree) (start index : Nat)
    (alternatives : List (List Term)) (best : Option Candidate) (s : State) :
    longest g tokens rule start index alternatives best s
      = longest g' tokens rule start index alternatives best s := by
  induction alternatives generalizing index best s with
  | nil => rfl
  | cons terms alternatives ih => simp only [longest, sequence_congr rules, ih]

theorem body_congr (rules : g.rules = g'.rules) (rule : Nat → Step Tree) (r : Rule) :
    body g tokens rule r = body g' tokens rule r := by
  funext s
  simp only [body, longest_congr rules]

theorem rule_congr (rules : g.rules = g'.rules) (depth : Nat) :
    rule g tokens depth = rule g' tokens depth := by
  induction depth with
  | zero => rfl
  | succ depth ih =>
    funext id s
    simp only [rule, rules, ih, body_congr rules]

end Parser

namespace Grammar

variable {g g' : Grammar}

/-- **Parsing depends on the rules** and on the one it starts from, but neither on the name nor
on the vocabulary. -/
theorem parseTokens_congr (rules : g.rules = g'.rules) (entry : g.entry = g'.entry)
    (tokens : List Token) : g.parseTokens tokens = g'.parseTokens tokens := by
  simp only [parseTokens, Parser.finish, Parser.depthBound, rules, entry, Parser.rule_congr rules]

/-- Grammars with the same rules read the same in a source that they cut into the same tokens. -/
theorem parse_congr (rules : g.rules = g'.rules) (entry : g.entry = g'.entry) {source : String}
    (tokens : g.vocabulary.tokenize source = g'.vocabulary.tokenize source) :
    g.parse source = g'.parse source := by
  simp only [parse, tokenize, tokens, parseTokens_congr rules entry]

end Grammar

namespace Xbnf

/-! ## The two grammars -/

/-- The lexicon of the grammar that is built and that of the one that is read have the same
shapes. -/
theorem mem_shapes_iff (s : Lexicon.Shape) : s ∈ lexicon.shapes ↔ s ∈ writtenLexicon.shapes := by
  have sub : ∀ s ∈ lexicon.shapes, s ∈ writtenLexicon.shapes := by decide
  have sup : ∀ s ∈ writtenLexicon.shapes, s ∈ lexicon.shapes := by decide
  exact ⟨sub s, sup s⟩

/-- **The written form has the rules of the notation.** There are both grammars, the one that is
built and the one that is read, and they differ in nothing but the order of their
vocabularies. -/
theorem exists_grammars : ∃ built read, grammar? = .ok built ∧ grammar = .ok read
    ∧ built.vocabulary = lexicon.vocabulary ∧ read.vocabulary = writtenLexicon.vocabulary
    ∧ built.rules = read.rules ∧ built.entry = read.entry := by
  have reads : ∃ read, grammar = .ok read ∧ read.vocabulary = writtenLexicon.vocabulary
      ∧ grammar?.toOption.any fun built =>
        decide (built.rules = read.rules ∧ built.entry = read.entry) := by
    unfold grammar source
    apply exists_load
    case spelled => repeat' constructor
    decide +kernel
  obtain ⟨read, has, vocabulary, same⟩ := reads
  obtain ⟨built, has', same⟩ := (Option.any_eq_true ..).1 same
  have has' : grammar? = .ok built := Except.toOption_eq_some.1 has'
  refine ⟨built, read, has', has, ?_, vocabulary, of_decide_eq_true same⟩
  rw [Grammar.vocabulary_of_build has', vocabulary_eq]

/-- **The notation reads itself.** The grammar that is built and the one that is read from the
written form are both there, and in every source they read the same tree, in which every token
has the same place, or fail with the same error. -/
theorem parse_eq_parse : ∃ built read, grammar? = .ok built ∧ grammar = .ok read
    ∧ ∀ source, parse source = built.parse source ∧ language.parse source = read.parse source
      ∧ read.parse source = built.parse source := by
  obtain ⟨built, read, has, has', vocabulary, vocabulary', rules, entry⟩ := exists_grammars
  refine ⟨built, read, has, has', fun source => ⟨?_, ?_, ?_⟩⟩
  · rw [parse, has]
    rfl
  · rw [Language.parse, language, has']
    rfl
  · have comments : lexicon.comments = writtenLexicon.comments := rfl
    refine (Grammar.parse_congr rules entry ?_).symm
    rw [vocabulary, vocabulary', Lexicon.tokenize_vocabulary_congr comments mem_shapes_iff]

end Xbnf

end Polyglot
