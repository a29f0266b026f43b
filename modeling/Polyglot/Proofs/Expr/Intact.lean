import Mathlib
import Polyglot.Proofs.Expr.Counterparts
import Polyglot.Proofs.Language.Legible
import Polyglot.Proofs.Parsing.Induction

/-!
# Intact terms

A term is *intact* if no part of it is broken (`Term.intact`). Evaluating an intact term may meet a
variable without a value or a division by zero, but never a defect (`eval_ne_malformed`).

What is read from the trees of sources is intact, as far as their numbers have values
(`evaluate_shake_ne_malformed`). For this, it is said of every rule which trees stay of it when they are
shaken (`Stays`), and the induction is on how the grammar puts the tree together.
-/

namespace Polyglot.Expr

open Assembly (word)

/-- Whether no part of a term is broken. -/
def Term.intact : Term → Bool
  | .number _ | .variable .. => true
  | .negate operand => operand.intact
  | .binary _ left right _ => left.intact && right.intact
  | .broken .. => false

/-- **An intact term** has no defect to be found. -/
theorem eval_ne_malformed (t : Term) (intact : t.intact) (env : String → Option Int32)
    (defect : Defect) (span : Source.Span) : eval env t ≠ .error (.malformed defect span) := by
  cases t with
  | broken => cases intact
  | number value =>
    rw [eval]
    rintro ⟨⟩
  | «variable» name place =>
    rw [eval]
    split <;> rintro ⟨⟩
  | negate operand =>
    rw [Term.intact] at intact
    rw [eval]
    intro eq
    rcases Except.bind_eq_error.1 eq with eq | ⟨value, -, eq⟩
    · exact eval_ne_malformed operand intact env defect span eq
    · cases eq
  | binary op left right place =>
    rw [Term.intact, Bool.and_eq_true] at intact
    rw [eval]
    intro eq
    rcases Except.bind_eq_error.1 eq with eq | ⟨a, -, eq⟩
    · exact eval_ne_malformed left intact.1 env defect span eq
    rcases Except.bind_eq_error.1 eq with eq | ⟨b, -, eq⟩
    · exact eval_ne_malformed right intact.2 env defect span eq
    · split at eq <;> cases eq

/-! ## What is read from shaken trees -/

/-- Whether a tree is the sign of an operator. -/
def IsSign (t : Tree) : Prop := (Operator.ofSign? (signOf t)).isSome

/-- Signs of operators and intact terms, one after the other, go on with an intact term. -/
theorem intact_ofPairs {links : List (Tree × Tree)}
    (each : ∀ k ∈ links, IsSign k.1 ∧ (ofTree k.2).intact) (whole : Tree) {left : Term}
    (start : left.intact) : (ofPairs whole left (links.flatMap fun k => [k.1, k.2])).intact := by
  induction links generalizing left with
  | nil =>
    rw [List.flatMap_nil, ofPairs]
    exact start
  | cons k links ih =>
    obtain ⟨⟨isSign, intact⟩, others⟩ := List.forall_mem_cons.1 each
    obtain ⟨op, sign⟩ := Option.isSome_iff_exists.1 isSign
    have next : (binaryOf whole k.1 k.2 left (ofTree k.2)).intact := by
      rw [binaryOf, sign, Term.intact, start, intact]
      rfl
    rw [List.flatMap_cons, List.cons_append, List.cons_append, List.nil_append, ofPairs]
    exact ih others next

/-! ## What stays of the trees of the grammar -/

/-- Whether what stays is the tree of an intact term. -/
def IsTerm (ts : List Tree) : Prop := ∃ t, ts = [t] ∧ (ofTree t).intact

/-- Whether what stays is the tree of an intact term, possibly in brackets. -/
def IsPrimary (ts : List Tree) : Prop :=
  IsTerm ts ∨ ∃ left t right, ts = [left, t, right] ∧ isToken left "(" ∧ isToken right ")"
    ∧ (ofTree t).intact

/-- Whether what stays is an operator and the tree of an intact term. -/
def IsLink (ts : List Tree) : Prop :=
  ∃ k : Tree × Tree, ts = [k.1, k.2] ∧ IsSign k.1 ∧ (ofTree k.2).intact

/-- What stays of the trees of a symbol. -/
def Stays : Symbol → List Tree → Prop
  | .terminal type, ts => ∃ token, ts = [.leaf type none none token] ∧ token.type = type ∧ token.IsSound
  | .rule 4, ts => IsPrimary ts
  | .rule 7, ts | .rule 9, ts => IsLink ts
  | .rule 8, ts | .rule 10, ts => ∃ t, ts = [t] ∧ IsSign t
  | .rule _, ts => IsTerm ts

/-- Whether shaking leaves of a tree what should stay of a symbol. -/
def ShakenTo (s : Symbol) (t : Tree) : Prop :=
  t.label = none → Stays s (language.shaker.shakeInner t)

variable {t : Tree}

/-- What stays of the tree of a term that asks for a symbol, once. -/
theorem stays_of_one {term : Polyglot.Term} (h : readGrammar.TermHas ShakenTo term t)
    (once : term.multiplicity = .one) (unlabeled : term.label = none) :
    Stays term.symbol (language.shaker.shakeInner t) := by
  obtain ⟨shaken, label⟩ := h.of_once once
  exact shaken (label.trans unlabeled)

/-- What stays of a token with exactly one text. -/
theorem stays_word {text : String} (h : readGrammar.TermHas ShakenTo (word text) t) :
    ∃ u, language.shaker.shakeInner t = [u] ∧ isToken u text ∧ signOf u = text := by
  obtain ⟨token, eq, type, sound⟩ := stays_of_one h rfl rfl
  have lexeme := sound.exact text type
  exact ⟨_, eq, beq_iff_eq.2 lexeme, lexeme⟩

namespace Chain

variable (c : Chain) {children : List Tree}

/-- What stays of a chain of operators is an intact term. -/
theorem isTerm (h : List.Forall₂ (readGrammar.TermHas ShakenTo)
      [B.one c.operand.rule, { B.one c.linkRule with multiplicity := .star }] children) :
    IsTerm (language.shaker.shakeInner (.node c.name none (some 0) children)) := by
  obtain _ | ⟨first, _ | ⟨others, _ | _⟩⟩ := h
  obtain ⟨t, eq, intact⟩ : IsTerm (language.shaker.shakeInner _) := by
    have here := stays_of_one first rfl rfl
    cases c <;> exact here
  obtain ⟨items, isList, -, shaken, unlabeled⟩ := others.of_often nofun
  have each : ∀ t ∈ items, IsLink (language.shaker.shakeInner t) := by
    intro t mem
    have here := shaken t mem (unlabeled t mem)
    cases c <;> exact here
  obtain ⟨links, eq', intact'⟩ := Shake.exists_shakeList each
  have kept : language.shaker.isSpliced c.name = false := by cases c <;> decide
  have spliced : language.shaker.isSpliced (readGrammar.symbolName (.rule c.linkRule)
      ++ Multiplicity.star.suffix) := by cases c <;> decide
  have held := (congrArg language.shaker.shakeInner isList).trans (Shake.shakeInner_spliced spliced)
  refine ⟨_, Shake.shakeInner_kept kept rfl, ?_⟩
  rw [Shake.shakeList, Shake.shakeList, eq, held, eq', Shake.shakeList, List.append_nil,
    List.singleton_append, c.ofTree_node]
  exact intact_ofPairs intact' _ intact

/-- What stays of an operator with what comes after it. -/
theorem isLink (h : List.Forall₂ (readGrammar.TermHas ShakenTo)
      [B.one c.signRule, B.one c.operand.rule] children) :
    IsLink (language.shaker.shakeInner (.node (c.name ++ ":0") none (some 0) children)) := by
  obtain _ | ⟨sign, _ | ⟨operand, _ | _⟩⟩ := h
  obtain ⟨x, eq, isSign⟩ : ∃ x, language.shaker.shakeInner _ = [x] ∧ IsSign x := by
    have here := stays_of_one sign rfl rfl
    cases c <;> exact here
  obtain ⟨t, eq', intact⟩ : IsTerm (language.shaker.shakeInner _) := by
    have here := stays_of_one operand rfl rfl
    cases c <;> exact here
  have spliced : language.shaker.isSpliced (c.name ++ ":0") := by cases c <;> decide
  refine ⟨(x, t), ?_, isSign, intact⟩
  rw [Shake.shakeInner_spliced spliced, Shake.shakeList, Shake.shakeList, eq, eq', Shake.shakeList]
  rfl

/-- What stays of the sign of an operator. -/
theorem isSign {index : Nat} {terms : List Polyglot.Term}
    (among : (c.signs.map fun sign => [word sign])[index]? = some terms)
    (h : List.Forall₂ (readGrammar.TermHas ShakenTo) terms children) :
    ∃ t, language.shaker.shakeInner (.node (c.name ++ ":1") none (some index) children) = [t]
      ∧ IsSign t := by
  rw [List.getElem?_map, Option.map_eq_some_iff] at among
  obtain ⟨sign, at_, rfl⟩ := among
  obtain _ | ⟨leaf, _ | _⟩ := h
  obtain ⟨u, eq, -, signed⟩ := stays_word leaf
  obtain ⟨op, known, -⟩ := c.exists_operator (List.mem_of_getElem? at_)
  have spliced : language.shaker.isSpliced (c.name ++ ":1") := by cases c <;> decide
  refine ⟨u, ?_, ?_⟩
  · rw [Shake.shakeInner_spliced spliced, Shake.shakeList, eq, Shake.shakeList]
    rfl
  · rw [IsSign, signed, known]
    rfl

end Chain

/-- What stays of a phrase in which there are no chains. -/
theorem isTerm_unary {index : Nat} {terms : List Polyglot.Term} {children : List Tree}
    (among : [[word "-", B.one 3], [B.one 4]][index]? = some terms)
    (h : List.Forall₂ (readGrammar.TermHas ShakenTo) terms children) :
    IsTerm (language.shaker.shakeInner (.node "unary" none (some index) children)) := by
  refine ⟨_, Shake.shakeInner_kept (by decide) rfl, ?_⟩
  match index, among with
  | 0, among =>
    obtain rfl := Option.some.inj among
    obtain _ | ⟨minus, _ | ⟨operand, _ | _⟩⟩ := h
    obtain ⟨u, eq, isMinus, -⟩ := stays_word minus
    obtain ⟨t, eq', intact⟩ : IsTerm _ := stays_of_one operand rfl rfl
    rw [Shake.shakeList, Shake.shakeList, eq, eq', Shake.shakeList]
    exact (congrArg Term.intact (ofTree_negate isMinus t)).trans intact
  | 1, among =>
    obtain rfl := Option.some.inj among
    obtain _ | ⟨primary, _ | _⟩ := h
    rw [Shake.shakeList, Shake.shakeList, List.append_nil]
    obtain ⟨t, eq, intact⟩ | ⟨left, t, right, eq, isLeft, isRight, intact⟩ : IsPrimary _ :=
      stays_of_one primary rfl rfl
    · rw [eq, ofTree_single]
      exact intact
    · rw [eq, ofTree_group isLeft isRight]
      exact intact

/-- What stays of a phrase without a sign before it. -/
theorem isPrimary_primary {index : Nat} {terms : List Polyglot.Term} {children : List Tree}
    (among : [[B.one 5], [B.one 6], [word "(", B.one 1, word ")"]][index]? = some terms)
    (h : List.Forall₂ (readGrammar.TermHas ShakenTo) terms children) :
    IsPrimary (language.shaker.shakeInner (.node "primary" none (some index) children)) := by
  rw [Shake.shakeInner_spliced (by decide)]
  match index, among with
  | 0, among | 1, among =>
    obtain rfl := Option.some.inj among
    obtain _ | ⟨only, _ | _⟩ := h
    rw [Shake.shakeList, Shake.shakeList, List.append_nil]
    exact .inl (stays_of_one only rfl rfl)
  | 2, among =>
    obtain rfl := Option.some.inj among
    obtain _ | ⟨left, _ | ⟨inner, _ | ⟨right, _ | _⟩⟩⟩ := h
    obtain ⟨l, eq, isLeft, -⟩ := stays_word left
    obtain ⟨t, eq', intact⟩ : IsTerm _ := stays_of_one inner rfl rfl
    obtain ⟨r, eq'', isRight, -⟩ := stays_word right
    rw [Shake.shakeList, Shake.shakeList, Shake.shakeList, Shake.shakeList, eq, eq', eq'']
    exact .inr ⟨l, t, r, rfl, isLeft, isRight, intact⟩

/-- What stays of the whole tree. -/
theorem isTerm_expr {children : List Tree}
    (h : List.Forall₂ (readGrammar.TermHas ShakenTo) [B.one 1] children) :
    IsTerm (language.shaker.shakeInner (.node "expr" none (some 0) children)) := by
  obtain _ | ⟨sum, _ | _⟩ := h
  obtain ⟨t, eq, intact⟩ : IsTerm _ := stays_of_one sum rfl rfl
  refine ⟨_, Shake.shakeInner_kept (by decide) rfl, ?_⟩
  rw [Shake.shakeList, Shake.shakeList, eq, List.append_nil]
  simpa [ofTree, ofSingle] using intact

/-- What stays of the tree of an alternative. -/
theorem stays_of_choice {id : Nat} {name : String} {alternatives : List (List Polyglot.Term)}
    {index : Nat} {terms : List Polyglot.Term} {children : List Tree}
    (found : readGrammar.rules[id]? = some ⟨name, .choice alternatives⟩)
    (among : alternatives[index]? = some terms)
    (h : List.Forall₂ (readGrammar.TermHas ShakenTo) terms children) :
    Stays (.rule id) (language.shaker.shakeInner (.node name none (some index) children)) := by
  match id, found with
  | 0, found =>
    obtain ⟨rfl, rfl, rfl⟩ := Grammar.only_inj found among
    exact isTerm_expr h
  | 1, found =>
    obtain ⟨rfl, rfl, rfl⟩ := Grammar.only_inj found among
    exact Chain.sum.isTerm h
  | 2, found =>
    obtain ⟨rfl, rfl, rfl⟩ := Grammar.only_inj found among
    exact Chain.product.isTerm h
  | 3, found =>
    obtain ⟨rfl, rfl⟩ := Grammar.choice_inj found
    exact isTerm_unary among h
  | 4, found =>
    obtain ⟨rfl, rfl⟩ := Grammar.choice_inj found
    exact isPrimary_primary among h
  | 5, found | 6, found => cases found
  | 7, found =>
    obtain ⟨rfl, rfl, rfl⟩ := Grammar.only_inj found among
    exact Chain.sum.isLink h
  | 8, found =>
    obtain ⟨rfl, rfl⟩ := Grammar.choice_inj found
    exact Chain.sum.isSign among h
  | 9, found =>
    obtain ⟨rfl, rfl, rfl⟩ := Grammar.only_inj found among
    exact Chain.product.isLink h
  | 10, found =>
    obtain ⟨rfl, rfl⟩ := Grammar.choice_inj found
    exact Chain.product.isSign among h

/-- What stays of a token by another name. -/
theorem stays_of_alias {id : Nat} {name type : String} {token : Token}
    (found : readGrammar.rules[id]? = some ⟨name, .aliasOf type⟩) (is : token.type = type)
    (sound : token.IsSound) : Stays (.rule id) [.leaf name none (some type) token] := by
  match id, found with
  | 0, found | 1, found | 2, found | 3, found | 4, found | 7, found | 8, found | 9, found
  | 10, found => cases found
  | 5, found =>
    obtain ⟨rfl, rfl⟩ := Grammar.alias_inj found
    obtain ⟨value, known⟩ := Option.isSome_iff_exists.1 (sound.number is)
    refine ⟨_, rfl, ?_⟩
    simp [ofTree, ofLeaf, known, Term.intact]
  | 6, found =>
    obtain ⟨rfl, rfl⟩ := Grammar.alias_inj found
    refine ⟨_, rfl, ?_⟩
    simp [ofTree, ofLeaf, Term.intact]

/-- **What stays of a tree** of a symbol, if its tokens are sound. -/
theorem shakenTo_of_derives {s : Symbol} (derived : readGrammar.Derives s t)
    (sound : ∀ token ∈ t.tokens, token.IsSound) : ShakenTo s t := by
  refine derived.induct ?terminal ?another ?choice sound
  case terminal =>
    rintro type label token is sound rfl
    rw [Shake.shakeInner]
    exact ⟨token, rfl, is, sound⟩
  case another =>
    rintro id name type label token found is sound rfl
    rw [Shake.shakeInner]
    exact stays_of_alias found is sound
  case choice =>
    rintro id name alternatives index terms label children found among h rfl
    exact stays_of_choice found among h

/-- What is read from the shaken tree is intact. -/
theorem intact_shake (derived : readGrammar.Derives (.rule 0) t) (unlabeled : t.label = none)
    (sound : ∀ token ∈ t.tokens, token.IsSound) : (ofTree (language.shake t)).intact := by
  obtain ⟨u, eq, intact⟩ : IsTerm _ := shakenTo_of_derives derived sound unlabeled
  obtain ⟨children, node, -⟩ := derived.of_only rfl
  rw [node, Shake.shakeInner_kept (by decide) rfl, List.cons.injEq] at eq
  obtain ⟨rfl, -⟩ := eq
  rw [node]
  exact intact

/-- **Evaluation finds no defect** in the tree of a source, as far as its numbers are legible. -/
theorem evaluate_shake_ne_malformed {source : String} (parsed : language.parse source = .ok t)
    (legible : language.Legible source) (env : String → Option Int32) (defect : Defect)
    (span : Source.Span) : evaluate env (language.shake t) ≠ .error (.malformed defect span) := by
  have known : language.grammar? = .ok readGrammar := grammar_eq
  have vocabulary : readGrammar.vocabulary = lexicon.vocabulary := rfl
  obtain ⟨derived, unlabeled, sound⟩ := Language.isSound_of_parse known vocabulary parsed legible
  exact eval_ne_malformed _ (intact_shake derived unlabeled sound) env defect span

end Polyglot.Expr
