import Polyglot.Proofs.Assembly.Intact
import Polyglot.Proofs.B.Sources
import Polyglot.Proofs.Expr.Intact

/-!
# What back ends are given

A back end takes a tree and may find a defect in it: a part that is missing, a sign that is none, a
name that says nothing. With the trees of its own parser this does not happen
(`no_defect_in_sources`): the grammars have no such trees, and shaking makes none of those they
have. A number that is too large and an escape that means nothing are all that is left to go
wrong with single tokens, so it is asked that sources are legible.

What can still be wrong with a program is said by other errors: a variable without a value, a
function called with too many arguments, a label that is not there.
-/

namespace Polyglot

/-- Whether a source is read, and all its tokens are legible, can be computed along its tokens. -/
theorem Language.exists_parse_of_legible {L : Language} {g : Grammar} {l : Lexicon}
    (grammar : L.grammar? = .ok g) (vocabulary : g.vocabulary = l.vocabulary) (source : String)
    (depth : Nat) (read : (l.tokenize source.toList).toOption.any fun ts =>
      ts.all (decide ·.Legible) && (g.parseAlong depth ts).isSome) :
    (∃ t, L.parse source = .ok t) ∧ L.Legible source := by
  obtain ⟨ts, cut, read⟩ := (Option.any_eq_true ..).1 read
  obtain ⟨legible, found⟩ := Bool.and_eq_true_iff.1 read
  obtain ⟨t, found⟩ := Option.isSome_iff_exists.1 found
  replace cut := Except.toOption_eq_some.1 cut
  exact ⟨⟨t, (Language.parse_eq_ok grammar vocabulary).2 ⟨ts, cut, Grammar.parseTokens_of_parseAlong found⟩⟩,
    Language.legible_of_tokenize grammar vocabulary cut fun u mem =>
      of_decide_eq_true (List.all_eq_true.1 legible u mem)⟩

/-- **Back ends find no defect** in what their own parsers read, as far as the tokens of the source
are legible. Shaken trees of arithmetic can be evaluated, and those of programs compiled, without any;
trees of listings, raw and shaken, are listings, and no error with them is about an instruction
that does not exist, about how many operands there are, or about the shape of the tree. -/
theorem no_defect_in_sources :
    (∀ source t, Expr.language.parse source = .ok t → Expr.language.Legible source →
      ∀ env defect span,
        Expr.evaluate env (Expr.language.shake t) ≠ .error (.malformed defect span))
    ∧ (∀ source t, B.language.parse source = .ok t → B.language.Legible source →
      ∀ defect span, B.compile (B.language.shake t) ≠ .error (.malformed defect span))
    ∧ ∀ source t u, Assembly.language.parse source = .ok t → Assembly.language.Legible source →
      u = t ∨ u = Assembly.language.shake t →
        (∃ l, Assembly.Listing.ofTree u = .ok l)
        ∧ ∀ e, Assembly.assemble u = .error e →
          (∀ defect span, e ≠ .malformed defect span)
          ∧ (∀ mnemonic span, e ≠ .unknownInstruction mnemonic span)
          ∧ ∀ mnemonic expected found span, e ≠ .wrongArity mnemonic expected found span := by
  refine ⟨fun source t parsed legible => Expr.evaluate_shake_ne_malformed parsed legible,
    fun source t parsed legible => B.compile_shake_ne_malformed parsed legible,
    fun source t u parsed legible either => ⟨?listing, ?errors⟩⟩
  case listing =>
    obtain ⟨l, listed, -⟩ := Assembly.exists_listing parsed legible either
    exact ⟨l, listed⟩
  case errors =>
    intro e failed
    have informal := Assembly.neverFormal_of_parse parsed legible either e failed
    refine ⟨fun _ _ is => ?_, fun _ _ is => ?_, fun _ _ _ _ is => ?_⟩ <;>
    · rw [is] at informal
      cases informal

/-- Sources with brackets, signs, escapes, and all that may be left out. -/
theorem no_defect_in_samples :
    (∃ t, Expr.language.parse "x/-2*(y+7)" = .ok t ∧ Expr.language.Legible "x/-2*(y+7)"
      ∧ ∀ env defect span,
        Expr.evaluate env (Expr.language.shake t) ≠ .error (.malformed defect span))
    ∧ (∃ t, B.language.parse "fn f(x)if(!x)print(\"\\\"\");else return[x-8];" = .ok t
      ∧ B.language.Legible "fn f(x)if(!x)print(\"\\\"\");else return[x-8];"
      ∧ ∀ defect span, B.compile (B.language.shake t) ≠ .error (.malformed defect span))
    ∧ ∃ t, Assembly.language.parse ".data \"\\n\" .code a:setv x =0 jumpv a" = .ok t
      ∧ Assembly.language.Legible ".data \"\\n\" .code a:setv x =0 jumpv a"
      ∧ (∃ l, Assembly.Listing.ofTree (Assembly.language.shake t) = .ok l)
      ∧ ∀ e, Assembly.assemble (Assembly.language.shake t) = .error e →
        (∀ defect span, e ≠ .malformed defect span)
        ∧ (∀ mnemonic span, e ≠ .unknownInstruction mnemonic span)
        ∧ ∀ mnemonic expected found span, e ≠ .wrongArity mnemonic expected found span := by
  obtain ⟨expr, b, assembly⟩ := no_defect_in_sources
  have first : Expr.language.grammar? = .ok Expr.readGrammar := Expr.grammar_eq
  have second : B.language.grammar? = .ok B.readGrammar := B.grammar_eq
  have third : Assembly.language.grammar? = .ok Assembly.readGrammar := Assembly.grammar_eq
  obtain ⟨⟨t, parsed₁⟩, legible₁⟩ := Language.exists_parse_of_legible first rfl "x/-2*(y+7)" 40
    (by decide +kernel)
  obtain ⟨⟨u, parsed₂⟩, legible₂⟩ := Language.exists_parse_of_legible second rfl
    "fn f(x)if(!x)print(\"\\\"\");else return[x-8];" 60 (by decide +kernel)
  obtain ⟨⟨v, parsed₃⟩, legible₃⟩ := Language.exists_parse_of_legible third rfl
    ".data \"\\n\" .code a:setv x =0 jumpv a" 40 (by decide +kernel)
  exact ⟨⟨t, parsed₁, legible₁, expr _ t parsed₁ legible₁⟩, ⟨u, parsed₂, legible₂, b _ u parsed₂ legible₂⟩,
    v, parsed₃, legible₃, assembly _ v _ parsed₃ legible₃ (.inr rfl)⟩

end Polyglot
