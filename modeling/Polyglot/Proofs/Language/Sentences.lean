import Polyglot.Proofs.B.Outlook

/-!
# The sentences of the languages

The grammar of a language says what its sentences are, and the parser what is parsed. For expressions
and for B these are the same (`parses_iff_generates`): the parser never takes too much, and it never gives up
where there is another way.

That what is parsed is a sentence holds of all grammars. The converse is checked: for expressions the
next token always decides what to do (`Expr.outlook`), and for B it does so with a few exceptions
(`B.settled`). What the sentences are is said with the declarations that stand in the written form of
the grammar (`Xbnf.declared`), by which the rules are called by their names, and groups are groups.
-/

namespace Polyglot

namespace Xbnf

/-- The declarations of a written grammar. -/
def declared (source : String) : Except ReadError (List Declaration) := do
  (declarationsOf (← parse source)).mapError .grammar

/-- What holds of the declarations that are read along the tokens. -/
theorem exists_declared {lines : List String} {text : List Char} {p : List Declaration → Prop}
    [DecidablePred p] (spelled : Spelled lines text)
    (checked : (do
      let tokens ← (lexicon.tokenize text).toOption
      let tree ← readGrammar.parseAlong depth tokens
      (declarationsOf tree).toOption).any fun ds => decide (p ds)) :
    ∃ ds, declared (unlines lines) = .ok ds ∧ p ds := by
  obtain ⟨ds, read, checked⟩ := (Option.any_eq_true ..).1 checked
  simp only [Option.bind_eq_bind, Option.bind_eq_some_iff] at read
  obtain ⟨tokens, cut, tree, parsed, read⟩ := read
  refine ⟨ds, ?_, of_decide_eq_true checked⟩
  rw [declared, parse_eq_ok spelled cut parsed]
  show (declarationsOf tree).mapError _ = _
  rw [Except.toOption_eq_some.1 read]
  rfl

end Xbnf

namespace Grammar

/-- Whether the rules of a grammar were made of declarations with different names, and parsing starts
from the one with the name of the grammar. -/
def IsMadeOf (g : Grammar) (ds : List Declaration) : Prop :=
  (∀ d ∈ ds, d.isPlain) ∧ (ds.map Declaration.name).Nodup
    ∧ ds[g.entry]?.map Declaration.name = some g.name ∧ lower g.vocabulary ds = .ok g.rules

instance (g : Grammar) : DecidablePred g.IsMadeOf := fun _ => inferInstanceAs (Decidable (_ ∧ _ ∧ _ ∧ _))

/-- What the rule stands for that parsing starts from, in terms of declarations. -/
theorem IsMadeOf.generates_iff {g : Grammar} {ds : List Declaration} (made : g.IsMadeOf ds) {tokens : List Token} :
    Generates ds (.ofRule g.name) tokens ↔ g.Yields (.rule g.entry) tokens := by
  obtain ⟨plain, nodup, first, lowered⟩ := made
  obtain ⟨d, found, named⟩ := Option.map_eq_some_iff.1 first
  rw [generates_iff_once rfl, ← named]
  exact once_iff_yields (isLowering_of_lower plain lowered) nodup found

end Grammar

/-! ## Expressions -/

namespace Expr

/-- The tokens at both ends of the rules. -/
def outlook : Along.Outlook where
  rank id := id
  first
    | 0 | 1 | 2 | 3 => ["decimal_integer", "identifier"] ++ ["(", "-"].map Text.quote
    | 4 => ["decimal_integer", "identifier", Text.quote "("]
    | 5 => ["decimal_integer"]
    | 6 => ["identifier"]
    | 7 | 8 => ["+", "-"].map Text.quote
    | 9 | 10 => ["*", "/", "%"].map Text.quote
    | _ => []
  further
    | 0 | 1 => ["+", "-", "*", "/", "%"].map Text.quote
    | 2 | 7 => ["*", "/", "%"].map Text.quote
    | _ => []

theorem outlook_sound : outlook.Sound readGrammar where
  opens := by decide +kernel
  ranked := by decide +kernel

/-- All rules are decided by the next token. -/
theorem decides (id : Nat) : outlook.decides readGrammar id := by
  have all : ∀ id < readGrammar.rules.size, outlook.decides readGrammar id := by decide +kernel
  by_cases inside : id < readGrammar.rules.size
  · exact all id inside
  · rw [Along.Outlook.decides, Array.getElem?_eq_none (Nat.not_lt.1 inside)]

/-- **All sentences are parsed.** -/
theorem exists_parse {tokens : List Token} (yields : readGrammar.Yields (.rule readGrammar.entry) tokens) :
    ∃ t, readGrammar.parseTokens tokens = .ok t :=
  Along.Outlook.exists_parse outlook_sound
    (fun id => Along.settled_of_decides outlook_sound (decides id)) yields

theorem exists_isMadeOf : ∃ ds, Xbnf.declared source = .ok ds ∧ readGrammar.IsMadeOf ds := by
  unfold source
  apply Xbnf.exists_declared
  case spelled => repeat' constructor
  decide +kernel

end Expr

namespace B

theorem exists_isMadeOf : ∃ ds, Xbnf.declared source = .ok ds ∧ readGrammar.IsMadeOf ds := by
  unfold source
  apply Xbnf.exists_declared
  case spelled => repeat' constructor
  decide +kernel

end B

/-- **The parser accepts what the grammar derives**, and nothing else: tokens are parsed as an
expression, or as a program of B, just if they can be derived from the rule that parsing starts from,
as the rules are declared in the written grammar. -/
theorem parses_iff_generates :
    (∃ g ds, Expr.grammar = .ok g ∧ Xbnf.declared Expr.source = .ok ds ∧ ∀ tokens,
      (∃ t, g.parseTokens tokens = .ok t) ↔ Grammar.Generates ds (.ofRule "expr") tokens)
    ∧ ∃ g ds, B.grammar = .ok g ∧ Xbnf.declared B.source = .ok ds ∧ ∀ tokens,
      (∃ t, g.parseTokens tokens = .ok t) ↔ Grammar.Generates ds (.ofRule "b") tokens := by
  refine ⟨?expressions, ?programs⟩
  case expressions =>
    have reads : Expr.readGrammar.readsAll := by decide +kernel
    obtain ⟨ds, declared, made⟩ := Expr.exists_isMadeOf
    refine ⟨Expr.readGrammar, ds, Expr.grammar_eq, declared, fun tokens => ?_⟩
    refine Iff.trans ⟨fun ⟨t, parsed⟩ => ?_, Expr.exists_parse⟩ made.generates_iff.symm
    exact Grammar.yields_of_parseTokens reads parsed
  case programs =>
    have reads : B.readGrammar.readsAll := by decide +kernel
    obtain ⟨ds, declared, made⟩ := B.exists_isMadeOf
    refine ⟨B.readGrammar, ds, B.grammar_eq, declared, fun tokens => ?_⟩
    refine Iff.trans ⟨fun ⟨t, parsed⟩ => ?_, B.exists_parse⟩ made.generates_iff.symm
    exact Grammar.yields_of_parseTokens reads parsed

end Polyglot
