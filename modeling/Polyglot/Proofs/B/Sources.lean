import Polyglot.Proofs.B.Sentences
import Polyglot.Proofs.B.Shaken
import Polyglot.Proofs.Parsing.Tokens

/-!
# The programs of sources

The numbers of the program of a source are those of the source: all of them pass a test just if those
among the tokens do, and a number without a value is the only thing that leaves a defect behind
(`fine_ofTree_shake`). So programs of sources are intact, as far as their numbers and texts have values
(`intact_ofTree_shake`), and then the compiler finds no defect in them (`compile_shake_ne_malformed`).

The variables that are assigned in a function are collected from its tree. They are those of the
assignments that are read from it (`mem_assigned_iff`).
-/

namespace Polyglot.B

open Polyglot.Source (Span)

variable {ok : Nat → Prop} {t : Tree}

/-! ## Texts -/

mutual

/-- All texts have values just if the leaves that are read as texts have. -/
theorem forall_mem_textsIn (t : Tree) :
    (∀ x ∈ textsIn t, ∃ text, x = .ok text)
      ↔ ∀ u ∈ t.parts, u.name = "string" → ∃ token ∈ u.token?, token.str?.isSome := by
  cases t with
  | leaf name label terminal token =>
    rw [textsIn, Tree.parts, List.forall_mem_singleton]
    split
    · rename_i named
      cases value : token.str? <;> simp [Tree.token?, Tree.name, beq_iff_eq.1 named, value]
    · rename_i other
      exact iff_of_true (List.forall_mem_nil _) fun named => absurd (beq_iff_eq.2 named) other
  | node name label choice children =>
    rw [textsIn, Tree.parts, List.forall_mem_cons]
    split
    · rename_i named
      refine iff_of_false (fun all => ?_) fun all => ?_
      · obtain ⟨_, none⟩ := all _ (List.mem_singleton_self _)
        cases none
      · obtain ⟨_, none, -⟩ := all.1 (beq_iff_eq.1 named)
        cases none
    · rename_i other
      rw [forall_mem_textsInList children]
      exact (and_iff_right fun named => absurd (beq_iff_eq.2 named) other).symm

theorem forall_mem_textsInList (ts : List Tree) :
    (∀ x ∈ textsInList ts, ∃ text, x = .ok text)
      ↔ ∀ u ∈ Tree.partsOfList ts, u.name = "string" → ∃ token ∈ u.token?, token.str?.isSome := by
  cases ts with
  | nil =>
    rw [textsInList, Tree.partsOfList]
    exact iff_of_true (List.forall_mem_nil _) (List.forall_mem_nil _)
  | cons t ts =>
    rw [textsInList, Tree.partsOfList, List.forall_mem_append, List.forall_mem_append, forall_mem_textsIn t,
      forall_mem_textsInList ts]

end

/-- What is called a text is a token, and one that is a text in quotes. -/
theorem exists_string_of_has (has : readGrammar.Has t) (named : t.name = "string") :
    ∃ token ∈ t.token?, token.type = "escaped_string" := by
  have only : ∀ r ∈ rules.toList, r.name = "string" → r.body = .aliasOf "escaped_string" := by decide
  have never : ∀ r ∈ rules.toList, ∀ terms ∈ r.alternatives, ∀ term ∈ terms,
      term.symbol ≠ .terminal "string" := by decide
  cases t with
  | leaf name label terminal token =>
    obtain rfl : name = "string" := named
    refine ⟨token, rfl, ?_⟩
    rcases has.of_leaf with ⟨-, term, ⟨r, mem, terms, mem', mem''⟩, asks⟩ | ⟨r, mem, named, body⟩
    · exact absurd asks (never r (Array.mem_toList_iff.2 mem) terms mem' term mem'')
    · rw [only r (Array.mem_toList_iff.2 mem) named] at body
      exact (RuleBody.aliasOf.inj body).symm
  | node name label choice children =>
    obtain rfl : name = "string" := named
    rcases has.of_node with generated | ⟨r, mem, named, terms, among, -⟩
    · exact absurd generated (by decide)
    · rw [Rule.alternatives, only r (Array.mem_toList_iff.2 mem) named] at among
      cases among

/-! ## Programs -/

section

variable {source : String} (parsed : language.parse source = .ok t)

include parsed

/-- The trees of sources are those of the grammar, with tokens that the lexicon has cut out. -/
theorem derives_of_parse : readGrammar.Derives (.rule readGrammar.entry) t ∧ t.label = none
    ∧ ∀ token ∈ t.tokens, isReserved token.type ∨ lexicon.Whole token := by
  have known : language.grammar? = .ok readGrammar := grammar_eq
  have vocabulary : readGrammar.vocabulary = lexicon.vocabulary := rfl
  obtain ⟨derived, unlabeled, ts, -, each⟩ := Language.whole_of_parse known vocabulary parsed
  exact ⟨derived, unlabeled, fun token mem => (each token mem).imp_right And.right⟩

/-- What is read from a shaken tree. -/
theorem stays_shake (zero : ok 0) : Kind.program.Stays ok [language.shake t] := by
  obtain ⟨derived, unlabeled, each⟩ := derives_of_parse parsed
  have isExact : ∀ token ∈ t.tokens, token.IsExact := by
    intro token mem text is
    rcases each token mem with reserved | whole
    · rw [is, Lexicon.isReserved_quote] at reserved
      cases reserved
    · exact whole.lexeme_eq is
  have shaken : Kind.program.Stays ok _ := shakenTo_of_derives zero derived isExact
  rw [← unlabeled, withLabel_self] at shaken
  obtain ⟨children, node, -⟩ := derived.of_only rfl
  rw [node, Shake.shakeInner_kept (by decide) rfl] at shaken
  rw [node]
  exact shaken

/-- **The numbers of a program** are those of its source: if these pass a test, those do, and there is no
defect; and if these do not, there is one, or those do not either. -/
theorem fine_ofTree_shake (zero : ok 0) :
    (∀ f ∈ (Program.ofTree (language.shake t)).functions, f.Fine ok) ↔ t.Fine ok := by
  obtain ⟨u, eq, same, -⟩ := stays_shake parsed zero
  obtain rfl := List.singleton_inj.1 eq
  rw [same, Tree.Fine, Language.shake, Shake.tokens_shake rfl, Tree.Fine]

/-- **The variables that are assigned** in a function are those of the assignments in its body. -/
theorem mem_assigned_iff : ∀ f ∈ (Program.ofTree (language.shake t)).functions, ∀ x,
    x ∈ f.assigned ↔ f.Assigns x := by
  have shaken : Kind.program.Stays (fun _ => True) [language.shake t] := stays_shake parsed trivial
  obtain ⟨u, eq, -, assigns⟩ := shaken
  obtain rfl := List.singleton_inj.1 eq
  refine fun f mem x => ⟨assigns f mem x, ?_⟩
  rintro ⟨body, found, assigned⟩
  obtain ⟨v, -, rfl⟩ := List.mem_map.1 mem
  exact Function.assigned_of_targets found x assigned.mem_targets

/-- The texts of a program have values just if the texts in quotes of its source have. -/
theorem texts_ofTree_shake : (∀ x ∈ (Program.ofTree (language.shake t)).texts, ∃ text, x = .ok text)
    ↔ ∀ token ∈ t.tokens, token.type = "escaped_string" → token.str?.isSome := by
  obtain ⟨derived, -, -⟩ := derives_of_parse parsed
  have has : ∀ v ∈ t.parts, readGrammar.Has v :=
    t.forall_mem_parts (fun _ => Grammar.Has.below) (.entry derived)
  refine (forall_mem_textsIn _).trans ⟨fun all token mem type => ?_, fun all u mem named => ?_⟩
  · rw [← Shake.tokens_shake (s := language.shaker) rfl t] at mem
    obtain ⟨u, inside, is⟩ := Tree.exists_leaf_of_mem_tokens _ mem
    obtain ⟨v, among, stem⟩ := Shake.exists_stems (s := language.shaker) rfl t u inside
    have is' : v.token? = some token := stem.token.symm.trans is
    have named : v.name = "string" := by
      cases v with
      | node => cases is'
      | leaf =>
        obtain rfl := Option.some.inj is'
        exact name_of_has (has _ among) type
    obtain ⟨_, same, value⟩ := all u inside (stem.name.trans named)
    obtain rfl := Option.some.inj (is.symm.trans same)
    exact value
  · obtain ⟨v, among, stem⟩ := Shake.exists_stems (s := language.shaker) rfl t u mem
    obtain ⟨token, is, type⟩ := exists_string_of_has (has v among) (stem.name ▸ named)
    refine ⟨token, stem.token.trans is, all token ?_ type⟩
    refine (t.tokens_isInfix_of_mem_parts v among).subset ?_
    cases v with
    | node => cases is
    | leaf =>
      obtain rfl := Option.some.inj is
      exact List.mem_singleton_self _

/-- **The program of a source is intact**, as far as its numbers and texts are legible. -/
theorem intact_ofTree_shake (legible : language.Legible source) :
    (Program.ofTree (language.shake t)).Intact := by
  have known : language.grammar? = .ok readGrammar := grammar_eq
  have vocabulary : readGrammar.vocabulary = lexicon.vocabulary := rfl
  obtain ⟨-, -, sound⟩ := Language.isSound_of_parse known vocabulary parsed legible
  constructor
  case texts => exact (texts_ofTree_shake parsed).2 fun token mem => (sound token mem).text
  case bodies =>
    have fine : t.Fine fun _ => True := fun token mem is => by
      obtain ⟨n, known⟩ := Option.isSome_iff_exists.1 ((sound token mem).number is)
      exact ⟨n, known, trivial⟩
    intro f mem
    obtain ⟨body, is, fine⟩ := (fine_ofTree_shake parsed trivial).2 fine f mem
    exact ⟨body, is, fine.intact⟩

/-- **The compiler finds no defect** in the tree of a source, as far as its numbers and texts are
legible. -/
theorem compile_shake_ne_malformed (legible : language.Legible source) (defect : Defect) (span : Span) :
    compile (language.shake t) ≠ .error (.malformed defect span) :=
  Program.compile_ne_malformed (intact_ofTree_shake parsed legible) defect span

end

end Polyglot.B
