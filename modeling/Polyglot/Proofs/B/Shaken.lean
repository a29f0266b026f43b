import Polyglot.Proofs.B.Fidelity
import Polyglot.Proofs.Language.Legible
import Polyglot.Proofs.Parsing.Induction

/-!
# What stays of the trees of the grammar

It is said of every rule of the grammar which trees stay of it when they are shaken (`Stays`): trees
that nothing of is lost in reading, or the parts of such a tree, where the grammar has a tree for them and
shaking takes it out. The induction is on how the grammar puts the tree together (`shakenTo_of_derives`),
and a label is left out of it, for it makes no difference to what is read (`Reading.ofTree_withLabel`,
`Statement.ofTree_withLabel`).
-/

namespace Polyglot

/-- Whether a token has the text that its type says it has. -/
def Token.IsExact (t : Token) : Prop := ∀ text, t.type = Text.quote text → t.lexeme = text

/-- What is not called a number passes every test for numbers. -/
theorem Token.fine_of_type {ok : Nat → Prop} {t : Token} (other : t.type ≠ "decimal_integer") : t.Fine ok :=
  fun is => absurd is other

end Polyglot

namespace Polyglot.B

open Polyglot.Source
open Polyglot.Assembly (word)

variable {ok : Nat → Prop}

/-- What stays of the trees of rules. -/
inductive Kind where
  /-- A program. -/
  | program
  /-- A function. -/
  | function
  /-- The parameters of a function. -/
  | parameters
  /-- A parameter after others. -/
  | parameter
  /-- A statement. -/
  | statement
  /-- What is to be done otherwise. -/
  | otherwise
  /-- An expression that may have operators. -/
  | expression
  /-- A call. -/
  | call
  /-- An expression without operators, possibly in brackets. -/
  | primary
  /-- An expression without operators. -/
  | atom
  /-- The arguments of a call. -/
  | arguments
  /-- An argument after others. -/
  | argument
  /-- An operator with what comes after it. -/
  | link
  /-- The sign of an operator. -/
  | operator
  /-- A sign before an expression. -/
  | sign

/-- What stays of the trees of a rule. -/
def Kind.ofRule : Nat → Kind
  | 0 => program
  | 1 => function
  | 2 => parameters
  | 19 => primary
  | 20 => call
  | 21 => arguments
  | 22 | 23 | 24 | 25 => atom
  | 26 => parameter
  | 27 => otherwise
  | 28 | 29 | 30 | 32 | 34 | 36 => link
  | 31 | 33 | 35 | 37 => operator
  | 38 => sign
  | 39 => argument
  | id => if id < 12 then statement else expression

/-- Whether a tree without a label is that of an expression. -/
structure IsExpression (ok : Nat → Prop) (t : Tree) : Prop where
  /-- It has no label. -/
  label : t.label = none
  /-- What can be said about it is as fine as it is. -/
  tells : (Reading.ofTree t).Tells ok t

/-- Whether trees are what stays of something of a kind. -/
def Kind.Stays (ok : Nat → Prop) : Kind → List Tree → Prop
  | program, ts => ∃ t, ts = [t] ∧ ((∀ f ∈ (Program.ofTree t).functions, f.Fine ok) ↔ t.Fine ok)
      ∧ ∀ f ∈ (Program.ofTree t).functions, ∀ x ∈ f.assigned, f.Assigns x
  | function, ts => ∃ t, ts = [t] ∧ t.name = "function" ∧ (Function.ofTree t).Tells ok t
  | parameters, ts => ∃ t, ts = [t] ∧ t.label = none ∧ t.Fine ok
  | parameter, ts => ∀ t ∈ ts, t.Fine ok
  | statement, ts => ∃ t, ts = [t] ∧ t.label = none ∧ t.isLeaf = false ∧ (Statement.ofTree t).Tells ok t
  | otherwise, ts => ∃ word t, ts = [word, t] ∧ word.label = none ∧ IsMark ok word
      ∧ t.label = some "otherwise" ∧ (Statement.ofTree t).Tells ok t
  | expression, ts => ∃ t, ts = [t] ∧ t.isLeaf = false ∧ IsExpression ok t
  | call, ts => ∃ t, ts = [t] ∧ t.name = "call" ∧ IsExpression ok t
  | primary, ts => (∃ t, ts = [t] ∧ IsExpression ok t)
      ∨ ∃ left t right, ts = [left, t, right] ∧ B.isSign left "(" ∧ B.isSign right ")"
        ∧ IsMark ok left ∧ IsMark ok right ∧ IsExpression ok t
  | atom, ts => ∃ t, ts = [t] ∧ IsExpression ok t
  | arguments, ts => ∃ t, ts = [t] ∧ t.name = "arguments" ∧ (Reading.ofTree t).Lists ok t
  | argument, ts => ∃ comma t, ts = [comma, t] ∧ IsMark ok comma ∧ t.isLeaf = false ∧ IsExpression ok t
  | link, ts => ∃ sign t, ts = [sign, t] ∧ IsSign sign ∧ IsMark ok sign ∧ IsExpression ok t
  | operator, ts => ∃ sign, ts = [sign] ∧ IsSign sign ∧ IsMark ok sign
  | sign, ts => ∃ sign, ts = [sign] ∧ (B.isSign sign "!" ∨ B.isSign sign "-") ∧ IsMark ok sign

/-- What stays of the trees of a symbol. -/
def Stays (ok : Nat → Prop) : Symbol → List Tree → Prop
  | .terminal type, ts => ∃ token, ts = [.leaf type none none token] ∧ token.type = type ∧ token.IsExact
  | .rule id, ts => (Kind.ofRule id).Stays ok ts

/-- Whether shaking leaves of a tree what should stay of a symbol. A label that the tree has is left
out. -/
def ShakenTo (ok : Nat → Prop) (s : Symbol) (t : Tree) : Prop :=
  Stays ok s (language.shaker.shakeInner (t.withLabel none))

section

variable {t : Tree} {label : Option String}

theorem withLabel_self (t : Tree) : t.withLabel t.label = t := by cases t <;> rfl

theorem isLeaf_withLabel : (t.withLabel label).isLeaf = t.isLeaf := by cases t <;> rfl

theorem Reading.Tells.withLabel {r : Reading} (h : r.Tells ok t) (label : Option String) :
    r.Tells ok (t.withLabel label) where
  expression := h.expression.trans Tree.fine_withLabel.symm
  split x mem := (h.split x mem).trans Tree.fine_withLabel.symm
  literal n mem := (h.literal n mem).trans Tree.fine_withLabel.symm
  assigns := assignedIn_withLabel.trans h.assigns

/-- The label of a tree goes over to what stays. -/
theorem shakeInner_label {s : Shake} (unchained : s.chain = []) (t : Tree) :
    s.shakeInner t = (s.shakeInner (t.withLabel none)).map (Shake.inheritLabel t.label) := by
  cases t with
  | leaf name label =>
    rw [Tree.withLabel, Shake.shakeInner, Shake.shakeInner]
    rfl
  | node name label choice children =>
    cases spliced : s.isSpliced name with
    | true =>
      rw [Tree.withLabel, Shake.shakeInner_spliced spliced, Shake.shakeInner]
      simp only [spliced, ↓reduceIte]
      rfl
    | false =>
      rw [Tree.withLabel, Shake.shakeInner_kept spliced unchained, Shake.shakeInner_kept spliced unchained]
      rfl

/-- What stays of the tree of a term without a label. -/
theorem stays_of_one {term : Term} (h : readGrammar.TermHas (ShakenTo ok) term t)
    (once : term.multiplicity = .one) (unlabeled : term.label = none) :
    Stays ok term.symbol (language.shaker.shakeInner t) := by
  obtain ⟨shaken, label⟩ := h.of_once once
  rw [ShakenTo, ← label.trans unlabeled, withLabel_self] at shaken
  exact shaken

/-- A tree of which one tree without a label stays passes its label on. -/
theorem shakeInner_of_unlabeled {u : Tree} (eq : language.shaker.shakeInner (t.withLabel none) = [u])
    (unlabeled : u.label = none) : language.shaker.shakeInner t = [u.withLabel t.label] := by
  rw [shakeInner_label rfl t, eq, List.map_singleton, Shake.inheritLabel, unlabeled]
  rfl

/-- A token with exactly one text. -/
theorem stays_word {text : String} (h : readGrammar.TermHas (ShakenTo ok) (word text) t) :
    ∃ u, language.shaker.shakeInner t = [u] ∧ u.name = Text.quote text ∧ u.label = none ∧ IsMark ok u
      ∧ B.isSign u text := by
  obtain ⟨token, eq, type, exact⟩ := stays_of_one h rfl rfl
  refine ⟨_, eq, rfl, rfl, ⟨rfl, ?_⟩, beq_iff_eq.2 (exact text type)⟩
  exact Tree.fine_leaf.2 (Token.fine_of_type (type ▸ Lexicon.quote_ne (by decide)))

/-- A name that is asked for with a label. -/
theorem stays_name (h : readGrammar.TermHas (ShakenTo ok) { symbol := .terminal "identifier", label } t) :
    ∃ u, language.shaker.shakeInner t = [u] ∧ u.name = "identifier" ∧ u.label = label
      ∧ IsMark ok u := by
  obtain ⟨⟨token, eq, type, -⟩, labeled⟩ := h.of_once rfl
  refine ⟨_, shakeInner_of_unlabeled eq rfl, rfl, labeled, rfl, ?_⟩
  exact Tree.fine_leaf.2 (Token.fine_of_type (type ▸ by decide))

/-- What stays of an expression that is asked for with a label. -/
theorem stays_expression {id : Nat} (kind : Kind.ofRule id = .expression)
    (h : readGrammar.TermHas (ShakenTo ok) { one id with label } t) :
    ∃ u, language.shaker.shakeInner t = [u] ∧ u.label = label ∧ u.isLeaf = false
      ∧ (Reading.ofTree u).Tells ok u := by
  obtain ⟨shaken, labeled⟩ := h.of_once rfl
  change (Kind.ofRule id).Stays ok _ at shaken
  rw [kind] at shaken
  obtain ⟨u, eq, inner, unlabeled, tells⟩ := shaken
  refine ⟨_, shakeInner_of_unlabeled eq unlabeled, ?_, isLeaf_withLabel.trans inner, ?_⟩
  · rw [labeled, Tree.label_withLabel]
  · rw [Reading.ofTree_withLabel]
    exact tells.withLabel t.label

/-- What stays of a statement that is asked for with a label. -/
theorem stays_statement (h : readGrammar.TermHas (ShakenTo ok) { one 3 with label } t) :
    ∃ u, language.shaker.shakeInner t = [u] ∧ u.label = label ∧ u.isLeaf = false
      ∧ (Statement.ofTree u).Tells ok u := by
  obtain ⟨shaken, labeled⟩ := h.of_once rfl
  obtain ⟨u, eq, unlabeled, inner, tells⟩ := shaken
  refine ⟨_, shakeInner_of_unlabeled eq unlabeled, ?_, isLeaf_withLabel.trans inner, ?_⟩
  · rw [labeled, Tree.label_withLabel]
  · rw [Statement.ofTree_withLabel]
    exact tells.withLabel t.label

variable {name : String} {index : Nat} {terms : List Term} {children : List Tree}

/-! ### Expressions -/

/-- Chains of operators. -/
theorem expression_chain {operand link : Nat} (isChain : name ∈ Reading.chains)
    (kept : language.shaker.isSpliced name = false)
    (spliced : language.shaker.isSpliced (readGrammar.symbolName (.rule link) ++ Multiplicity.star.suffix))
    (isOperand : Kind.ofRule operand = .expression) (isLink : Kind.ofRule link = .link)
    (h : List.Forall₂ (readGrammar.TermHas (ShakenTo ok))
      [one operand, { one link with multiplicity := .star }] children) :
    Kind.expression.Stays ok (language.shaker.shakeInner (.node name none (some 0) children)) := by
  obtain _ | ⟨first, _ | ⟨others, _ | _⟩⟩ := h
  obtain ⟨t, eq, -, -, tells⟩ := stays_expression isOperand first
  obtain ⟨items, isList, -, shaken, unlabeled⟩ := others.of_often nofun
  have each : ∀ t ∈ items, ∃ k : Tree × Tree, language.shaker.shakeInner t = [k.1, k.2]
      ∧ IsSign k.1 ∧ IsMark ok k.1 ∧ IsExpression ok k.2 := by
    intro t mem
    have here := shaken t mem
    change (Kind.ofRule link).Stays ok _ at here
    rw [isLink, ← unlabeled t mem, withLabel_self] at here
    obtain ⟨sign, u, eq, rest⟩ := here
    exact ⟨(sign, u), eq, rest⟩
  obtain ⟨links, eq', linked⟩ := Shake.exists_shakeList each
  have held := (congrArg language.shaker.shakeInner isList).trans (Shake.shakeInner_spliced spliced)
  refine ⟨_, Shake.shakeInner_kept kept rfl, rfl, rfl, ?_⟩
  rw [Shake.shakeList, Shake.shakeList, eq, held, eq', Shake.shakeList, List.append_nil,
    List.singleton_append, Reading.ofTree, Reading.partsOf, Reading.partsOf_eq]
  have parts : (links.flatMap fun a => [a.1, a.2]).map (fun t => (t, Reading.ofTree t))
      = Reading.linked (links.map fun k => ((k.1, Reading.ofTree k.1), (k.2, Reading.ofTree k.2))) := by
    rw [Reading.linked, List.flatMap_map, List.map_flatMap]
    rfl
  rw [parts]
  refine Reading.tells_ofParts_chain isChain ?_ tells ?_ fun each => assignedIn_eq_nil ?_ ?_
  · refine List.forall_mem_map.2 fun k mem => ?_
    obtain ⟨isSign, mark, isExpression⟩ := linked k mem
    exact ⟨isSign, mark, isExpression.tells⟩
  · rw [Tree.fine_node, ← parts, List.forall_mem_cons, List.forall_mem_cons, List.forall_mem_map]
  · rintro rfl
    exact absurd isChain (by decide)
  · rw [← parts, List.forall_mem_cons, List.forall_mem_map] at each
    exact List.forall_mem_cons.2 each

/-- What has the text of a sign is that sign. -/
theorem isSign_of_isSign {text : String} (is : B.isSign t text) (sign : (Operator.ofSign? text).isSome) :
    IsSign t := by
  cases t with
  | leaf name label terminal token =>
    obtain rfl := beq_iff_eq.1 is
    exact sign
  | node => cases is

/-- An operator that is written out where it stands. -/
theorem link_word {text : String} {operand : Nat} (sign : (Operator.ofSign? text).isSome)
    (spliced : language.shaker.isSpliced name) (isOperand : Kind.ofRule operand = .expression)
    (h : List.Forall₂ (readGrammar.TermHas (ShakenTo ok)) [word text, one operand] children) :
    Kind.link.Stays ok (language.shaker.shakeInner (.node name none (some 0) children)) := by
  obtain _ | ⟨first, _ | ⟨second, _ | _⟩⟩ := h
  obtain ⟨w, eq, -, -, mark, is⟩ := stays_word first
  obtain ⟨u, eq', label, -, tells⟩ := stays_expression isOperand second
  refine ⟨w, u, ?_, isSign_of_isSign is sign, mark, label, tells⟩
  rw [Shake.shakeInner_spliced spliced, Shake.shakeList, Shake.shakeList, Shake.shakeList, eq, eq']
  rfl

/-- An operator that is one of several. -/
theorem link_operator {operator operand : Nat} (spliced : language.shaker.isSpliced name)
    (isOperator : Kind.ofRule operator = .operator) (isOperand : Kind.ofRule operand = .expression)
    (h : List.Forall₂ (readGrammar.TermHas (ShakenTo ok)) [one operator, one operand] children) :
    Kind.link.Stays ok (language.shaker.shakeInner (.node name none (some 0) children)) := by
  obtain _ | ⟨first, _ | ⟨second, _ | _⟩⟩ := h
  have here : (Kind.ofRule operator).Stays ok _ := stays_of_one first rfl rfl
  rw [isOperator] at here
  obtain ⟨sign, eq, isSign, mark⟩ := here
  obtain ⟨u, eq', label, -, tells⟩ := stays_expression isOperand second
  refine ⟨sign, u, ?_, isSign, mark, label, tells⟩
  rw [Shake.shakeInner_spliced spliced, Shake.shakeList, Shake.shakeList, Shake.shakeList, eq, eq']
  rfl

/-- The signs of operators. -/
theorem operator_words (signs : List String) (known : ∀ sign ∈ signs, (Operator.ofSign? sign).isSome)
    (spliced : language.shaker.isSpliced name)
    (among : (signs.map fun sign => [word sign])[index]? = some terms)
    (h : List.Forall₂ (readGrammar.TermHas (ShakenTo ok)) terms children) :
    Kind.operator.Stays ok (language.shaker.shakeInner (.node name none (some index) children)) := by
  rw [List.getElem?_map, Option.map_eq_some_iff] at among
  obtain ⟨sign, at_, rfl⟩ := among
  obtain _ | ⟨only, _ | _⟩ := h
  obtain ⟨w, eq, -, -, mark, is⟩ := stays_word only
  refine ⟨w, ?_, isSign_of_isSign is (known sign (List.mem_of_getElem? at_)), mark⟩
  rw [Shake.shakeInner_spliced spliced, Shake.shakeList, eq, Shake.shakeList]
  rfl

/-- What stays of the sign before a phrase. -/
theorem sign_alternative (among : [[word "!"], [word "-"]][index]? = some terms)
    (h : List.Forall₂ (readGrammar.TermHas (ShakenTo ok)) terms children) :
    Kind.sign.Stays ok (language.shaker.shakeInner (.node "unary:0" none (some index) children)) := by
  rw [Shake.shakeInner_spliced (by decide)]
  match index, among with
  | 0, among =>
    obtain rfl := Option.some.inj among
    obtain _ | ⟨only, _ | _⟩ := h
    obtain ⟨w, eq, -, -, mark, is⟩ := stays_word only
    rw [Shake.shakeList, eq, Shake.shakeList]
    exact ⟨w, rfl, .inl is, mark⟩
  | 1, among =>
    obtain rfl := Option.some.inj among
    obtain _ | ⟨only, _ | _⟩ := h
    obtain ⟨w, eq, -, -, mark, is⟩ := stays_word only
    rw [Shake.shakeList, eq, Shake.shakeList]
    exact ⟨w, rfl, .inr is, mark⟩

/-- What stays of a phrase with a sign before it, or without one. -/
theorem expression_unary (among : [[one 38, one 18], [one 19]][index]? = some terms)
    (h : List.Forall₂ (readGrammar.TermHas (ShakenTo ok)) terms children) :
    Kind.expression.Stays ok (language.shaker.shakeInner (.node "unary" none (some index) children)) := by
  refine ⟨_, Shake.shakeInner_kept (by decide) rfl, rfl, rfl, ?_⟩
  match index, among with
  | 0, among =>
    obtain rfl := Option.some.inj among
    obtain _ | ⟨first, _ | ⟨second, _ | _⟩⟩ := h
    obtain ⟨sign, eq, isSign, mark⟩ : Kind.sign.Stays ok _ := stays_of_one first rfl rfl
    obtain ⟨u, eq', -, -, tells⟩ := stays_expression rfl second
    rw [Shake.shakeList, Shake.shakeList, Shake.shakeList, eq, eq']
    refine Reading.tells_of_expression ?_ (assignedIn_eq_nil (by decide) ?_) rfl rfl
    · refine (Reading.fine_sign isSign).trans (tells.expression.trans ?_)
      simp [mark.fine]
    · simp [mark.assigns, tells.assigns]
  | 1, among =>
    obtain rfl := Option.some.inj among
    obtain _ | ⟨primary, _ | _⟩ := h
    rw [Shake.shakeList, Shake.shakeList, List.append_nil]
    obtain ⟨t, eq, isExpression⟩ | ⟨left, t, right, eq, isLeft, isRight, mark, mark', isExpression⟩ :
        Kind.primary.Stays ok _ := stays_of_one primary rfl rfl
    · rw [eq]
      have below : (Tree.node "unary" none (some 1) [t]).Fine ok ↔ t.Fine ok := by simp
      obtain ⟨expression, split, literal, assigns⟩ := isExpression.tells
      exact ⟨expression.trans below.symm, fun x mem => (split x mem).trans below.symm,
        fun n mem => (literal n mem).trans below.symm, assignedIn_eq_nil (by decide) (by simpa using assigns)⟩
    · rw [eq]
      refine Reading.tells_of_expression ?_ (assignedIn_eq_nil (by decide) ?_) rfl rfl
      · have inner : (Reading.ofTree (.node "unary" none (some 1) [left, t, right])).expression
            = (Reading.ofTree t).expression := Reading.unary_brackets isLeft isRight
        rw [inner, isExpression.tells.expression]
        simp [mark.fine, mark'.fine]
      · simp [mark.assigns, mark'.assigns, isExpression.tells.assigns]

/-- What stays of a phrase without a sign before it. -/
theorem primary_alternative
    (among : [[one 20], [one 22], [one 23], [one 24], [one 25], [word "(", one 12, word ")"]][index]?
      = some terms)
    (h : List.Forall₂ (readGrammar.TermHas (ShakenTo ok)) terms children) :
    Kind.primary.Stays ok (language.shaker.shakeInner (.node "primary" none (some index) children)) := by
  rw [Shake.shakeInner_spliced (by decide)]
  match index, among with
  | 0, among =>
    obtain rfl := Option.some.inj among
    obtain _ | ⟨only, _ | _⟩ := h
    rw [Shake.shakeList, Shake.shakeList, List.append_nil]
    obtain ⟨t, eq, -, isExpression⟩ : Kind.call.Stays ok _ := stays_of_one only rfl rfl
    exact .inl ⟨t, eq, isExpression⟩
  | 1, among | 2, among | 3, among | 4, among =>
    obtain rfl := Option.some.inj among
    obtain _ | ⟨only, _ | _⟩ := h
    rw [Shake.shakeList, Shake.shakeList, List.append_nil]
    exact .inl (stays_of_one only rfl rfl)
  | 5, among =>
    obtain rfl := Option.some.inj among
    obtain _ | ⟨left, _ | ⟨inner, _ | ⟨right, _ | _⟩⟩⟩ := h
    obtain ⟨l, eq₁, -, -, mark, isLeft⟩ := stays_word left
    obtain ⟨u, eq₂, label, -, tells⟩ := stays_expression rfl inner
    obtain ⟨r, eq₃, -, -, mark', isRight⟩ := stays_word right
    rw [Shake.shakeList, Shake.shakeList, Shake.shakeList, Shake.shakeList, eq₁, eq₂, eq₃]
    exact .inr ⟨l, u, r, rfl, isLeft, isRight, mark, mark', label, tells⟩

/-- What stays where there may be something or nothing. -/
theorem stays_optional {term : Term} (h : readGrammar.TermHas (ShakenTo ok) term t)
    (optional : term.multiplicity = .optional)
    (spliced : language.shaker.isSpliced
      (readGrammar.symbolName term.symbol ++ Multiplicity.optional.suffix)) :
    ∃ us, language.shaker.shakeInner t = us.map (Shake.inheritLabel term.label)
      ∧ (us = [] ∨ Stays ok term.symbol us) := by
  obtain ⟨items, isList, few, shaken, unlabeled⟩ := h.of_often (by rw [optional]; nofun)
  rw [optional] at isList few
  refine ⟨language.shaker.shakeList items, ?_, ?_⟩
  · rw [isList, Shake.shakeInner]
    simp only [spliced, ↓reduceIte]
  · match items, few with
    | [], _ => exact .inl (by rw [Shake.shakeList])
    | [x], _ =>
      have here := shaken x (List.mem_singleton_self x)
      rw [ShakenTo, ← unlabeled x (List.mem_singleton_self x), withLabel_self] at here
      rw [Shake.shakeList, Shake.shakeList, List.append_nil]
      exact .inr here

/-- What stays where there may be something without a label or nothing. -/
theorem stays_optional_unlabeled {term : Term} (h : readGrammar.TermHas (ShakenTo ok) term t)
    (optional : term.multiplicity = .optional) (unlabeled : term.label = none)
    (spliced : language.shaker.isSpliced
      (readGrammar.symbolName term.symbol ++ Multiplicity.optional.suffix)) :
    ∃ us, language.shaker.shakeInner t = us ∧ (us = [] ∨ Stays ok term.symbol us) := by
  obtain ⟨us, eq, held⟩ := stays_optional h optional spliced
  have inherit : Shake.inheritLabel none = id := funext fun t => Shake.inheritLabel_none t
  rw [unlabeled, inherit, List.map_id] at eq
  exact ⟨us, eq, held⟩

/-- What stays of a call. -/
theorem call_alternative
    (h : List.Forall₂ (readGrammar.TermHas (ShakenTo ok))
      [{ symbol := .terminal "identifier", label := some "name" }, word "(",
        { one 21 with multiplicity := .optional }, word ")"] children) :
    Kind.call.Stays ok (language.shaker.shakeInner (.node "call" none (some 0) children)) := by
  obtain _ | ⟨callee, _ | ⟨left, _ | ⟨args, _ | ⟨right, _ | _⟩⟩⟩⟩ := h
  obtain ⟨c, eq₁, is₁, labeled, mark₁⟩ := stays_name callee
  obtain ⟨l, eq₂, is₂, -, mark₂, -⟩ := stays_word left
  obtain ⟨us, eq₃, held⟩ := stays_optional_unlabeled args rfl rfl (by decide)
  obtain ⟨r, eq₄, is₄, -, mark₄, -⟩ := stays_word right
  refine ⟨_, Shake.shakeInner_kept (by decide) rfl, rfl, rfl, ?_⟩
  rw [Shake.shakeList, Shake.shakeList, Shake.shakeList, Shake.shakeList, Shake.shakeList, eq₁, eq₂, eq₃,
    eq₄]
  refine Reading.tells_call labeled ?_ held
  simp only [List.forall_mem_cons, List.not_mem_nil, false_imp_iff, implies_true, and_true]
  exact ⟨⟨is₁ ▸ by decide, mark₁⟩, ⟨is₂ ▸ Lexicon.quote_ne (by decide), mark₂⟩,
    is₄ ▸ Lexicon.quote_ne (by decide), mark₄⟩

/-- What stays of the arguments of a call. -/
theorem arguments_alternative
    (h : List.Forall₂ (readGrammar.TermHas (ShakenTo ok))
      [one 12, { one 39 with multiplicity := .star }] children) :
    Kind.arguments.Stays ok (language.shaker.shakeInner (.node "arguments" none (some 0) children)) := by
  obtain _ | ⟨first, _ | ⟨others, _ | _⟩⟩ := h
  obtain ⟨t, eq, -, inner, tells⟩ := stays_expression rfl first
  obtain ⟨items, isList, -, shaken, unlabeled⟩ := others.of_often nofun
  have each : ∀ t ∈ items, ∃ k : Tree × Tree, language.shaker.shakeInner t = [k.1, k.2]
      ∧ IsMark ok k.1 ∧ k.2.isLeaf = false ∧ IsExpression ok k.2 := by
    intro t mem
    obtain ⟨comma, u, eq, rest⟩ : Kind.argument.Stays ok _ := shaken t mem
    rw [← unlabeled t mem, withLabel_self] at eq
    exact ⟨(comma, u), eq, rest⟩
  obtain ⟨links, eq', linked⟩ := Shake.exists_shakeList each
  have held := (congrArg language.shaker.shakeInner isList).trans (Shake.shakeInner_spliced (by decide))
  refine ⟨_, Shake.shakeInner_kept (by decide) rfl, rfl, ?_⟩
  rw [Shake.shakeList, Shake.shakeList, eq, held, eq', Shake.shakeList, List.append_nil,
    List.singleton_append]
  refine Reading.lists_ofTree (by decide) (List.forall_mem_cons.2 ⟨.inr ⟨inner, tells⟩, fun u mem => ?_⟩)
  obtain ⟨k, mem, inside⟩ := List.mem_flatMap.1 mem
  obtain ⟨comma, inner, isExpression⟩ := linked k mem
  rcases List.mem_pair.1 inside with rfl | rfl
  · exact .inl comma
  · exact .inr ⟨inner, isExpression.tells⟩

/-- What stays of an argument after others. -/
theorem argument_alternative
    (h : List.Forall₂ (readGrammar.TermHas (ShakenTo ok)) [word ",", one 12] children) :
    Kind.argument.Stays ok (language.shaker.shakeInner (.node "arguments:0" none (some 0) children)) := by
  obtain _ | ⟨comma, _ | ⟨operand, _ | _⟩⟩ := h
  obtain ⟨c, eq, -, -, mark, -⟩ := stays_word comma
  obtain ⟨u, eq', label, inner, tells⟩ := stays_expression rfl operand
  refine ⟨c, u, ?_, mark, inner, label, tells⟩
  rw [Shake.shakeInner_spliced (by decide), Shake.shakeList, Shake.shakeList, Shake.shakeList, eq, eq']
  rfl

/-- What stays of a word in memory. -/
theorem load_alternative (zero : ok 0)
    (h : List.Forall₂ (readGrammar.TermHas (ShakenTo ok))
      [word "[", { one 12 with label := some "address" }, word "]"] children) :
    Kind.atom.Stays ok (language.shaker.shakeInner (.node "load" none (some 0) children)) := by
  obtain _ | ⟨left, _ | ⟨place, _ | ⟨right, _ | _⟩⟩⟩ := h
  obtain ⟨l, eq₁, -, unlabeled, mark, -⟩ := stays_word left
  obtain ⟨u, eq₂, label, -, tells⟩ := stays_expression rfl place
  obtain ⟨r, eq₃, -, -, mark', -⟩ := stays_word right
  refine ⟨_, Shake.shakeInner_kept (by decide) rfl, rfl, ?_⟩
  rw [Shake.shakeList, Shake.shakeList, Shake.shakeList, Shake.shakeList, eq₁, eq₂, eq₃]
  exact Reading.tells_load zero unlabeled label mark mark' tells

/-! ### Statements -/

/-- What stays of a block. -/
theorem block_alternative
    (h : List.Forall₂ (readGrammar.TermHas (ShakenTo ok))
      [word "\x7b", { one 3 with multiplicity := .star }, word "\x7d"] children) :
    Kind.statement.Stays ok (language.shaker.shakeInner (.node "block" none (some 0) children)) := by
  obtain _ | ⟨left, _ | ⟨body, _ | ⟨right, _ | _⟩⟩⟩ := h
  obtain ⟨l, eq₁, -, -, mark, -⟩ := stays_word left
  obtain ⟨items, isList, -, shaken, unlabeled⟩ := body.of_often nofun
  obtain ⟨r, eq₃, -, -, mark', -⟩ := stays_word right
  have each : ∀ t ∈ items, ∃ u, language.shaker.shakeInner t = [u] ∧ u.isLeaf = false
      ∧ (Statement.ofTree u).Tells ok u := by
    intro t mem
    obtain ⟨u, eq, -, tells⟩ : Kind.statement.Stays ok _ := shaken t mem
    rw [← unlabeled t mem, withLabel_self] at eq
    exact ⟨u, eq, tells⟩
  obtain ⟨us, eq₂, tells⟩ := Shake.exists_shakeList each
  have held := (congrArg language.shaker.shakeInner isList).trans (Shake.shakeInner_spliced (by decide))
  refine ⟨_, Shake.shakeInner_kept (by decide) rfl, rfl, rfl, ?_⟩
  rw [Shake.shakeList, Shake.shakeList, Shake.shakeList, Shake.shakeList, eq₁, held, eq₂, eq₃,
    List.flatMap_singleton', List.append_nil, List.singleton_append]
  refine Statement.tells_block (List.forall_mem_cons.2 ⟨.inl mark, fun u mem => ?_⟩)
  rcases List.mem_append.1 mem with mem | mem
  · exact .inr (tells u mem)
  · obtain rfl := List.mem_singleton.1 mem
    exact .inl mark'

/-- What stays of a loop. -/
theorem while_alternative
    (h : List.Forall₂ (readGrammar.TermHas (ShakenTo ok))
      [word "while", word "(", { one 12 with label := some "condition" }, word ")",
        { one 3 with label := some "body" }] children) :
    Kind.statement.Stays ok (language.shaker.shakeInner (.node "while" none (some 0) children)) := by
  obtain _ | ⟨first, _ | ⟨left, _ | ⟨condition, _ | ⟨right, _ | ⟨body, _ | _⟩⟩⟩⟩⟩ := h
  obtain ⟨w, eq₁, -, label₁, mark₁, -⟩ := stays_word first
  obtain ⟨l, eq₂, -, label₂, mark₂, -⟩ := stays_word left
  obtain ⟨c, eq₃, label₃, -, tells⟩ := stays_expression rfl condition
  obtain ⟨r, eq₄, -, label₄, mark₄, -⟩ := stays_word right
  obtain ⟨b, eq₅, label₅, -, tells'⟩ := stays_statement body
  refine ⟨_, Shake.shakeInner_kept (by decide) rfl, rfl, rfl, ?_⟩
  rw [Shake.shakeList, Shake.shakeList, Shake.shakeList, Shake.shakeList, Shake.shakeList, Shake.shakeList,
    eq₁, eq₂, eq₃, eq₄, eq₅]
  have is : Statement.ofTree (.node "while" none (some 0) [w, l, c, r, b])
      = .whileLoop (Reading.ofTree c).expression (Statement.ofTree b) := by
    rw [Statement.ofTree]
    exact Statement.conditional_eq (by simp [Tree.labeled?, Tree.children, label₁, label₂, label₃])
      (by simp [Tree.labeled?, Tree.children, label₁, label₂, label₃, label₄, label₅])
  refine Statement.tells_of_node (by decide) is ?_ ?_
  · simp [mark₁.fine, mark₂.fine, mark₄.fine, tells.expression, tells'.fine]
  · simp [mark₁.assigns, mark₂.assigns, mark₄.assigns, tells.assigns, tells', Statement.parts]

/-- What stays of a decision. -/
theorem if_alternative
    (h : List.Forall₂ (readGrammar.TermHas (ShakenTo ok))
      [word "if", word "(", { one 12 with label := some "condition" }, word ")",
        { one 3 with label := some "then" }, { one 27 with multiplicity := .optional }] children) :
    Kind.statement.Stays ok (language.shaker.shakeInner (.node "if" none (some 0) children)) := by
  obtain _ | ⟨first, _ | ⟨left, _ | ⟨condition, _ | ⟨right, _ | ⟨positive, _ | ⟨negative, _ | _⟩⟩⟩⟩⟩⟩ := h
  obtain ⟨w, eq₁, -, label₁, mark₁, -⟩ := stays_word first
  obtain ⟨l, eq₂, -, label₂, mark₂, -⟩ := stays_word left
  obtain ⟨c, eq₃, label₃, -, tells⟩ := stays_expression rfl condition
  obtain ⟨r, eq₄, -, label₄, mark₄, -⟩ := stays_word right
  obtain ⟨b, eq₅, label₅, -, tells'⟩ := stays_statement positive
  obtain ⟨us, eq₆, held⟩ := stays_optional_unlabeled negative rfl rfl (by decide)
  refine ⟨_, Shake.shakeInner_kept (by decide) rfl, rfl, rfl, ?_⟩
  rw [Shake.shakeList, Shake.shakeList, Shake.shakeList, Shake.shakeList, Shake.shakeList, Shake.shakeList,
    Shake.shakeList, eq₁, eq₂, eq₃, eq₄, eq₅, eq₆]
  rcases held with rfl | ⟨word, d, rfl, label₆, mark₆, label₇, tells''⟩
  · have is : Statement.ofTree (.node "if" none (some 0) [w, l, c, r, b])
        = .ifThen (Reading.ofTree c).expression (Statement.ofTree b) :=
      Statement.ifThen_eq (by simp [Tree.labeled?, Tree.children, label₁, label₂, label₃])
        (by simp [Tree.labeled?, Tree.children, label₁, label₂, label₃, label₄, label₅])
        (by simp [Tree.labeled?, Tree.children, label₁, label₂, label₃, label₄, label₅])
    refine Statement.tells_of_node (by decide) is ?_ ?_
    · simp [mark₁.fine, mark₂.fine, mark₄.fine, tells.expression, tells'.fine]
    · simp [mark₁.assigns, mark₂.assigns, mark₄.assigns, tells.assigns, tells', Statement.parts]
  · have is : Statement.ofTree (.node "if" none (some 0) [w, l, c, r, b, word, d])
        = .ifElse (Reading.ofTree c).expression (Statement.ofTree b) (Statement.ofTree d) :=
      Statement.ifElse_eq (by simp [Tree.labeled?, Tree.children, label₁, label₂, label₃])
        (by simp [Tree.labeled?, Tree.children, label₁, label₂, label₃, label₄, label₅])
        (by simp [Tree.labeled?, Tree.children, label₁, label₂, label₃, label₄, label₅, label₆, label₇])
    refine Statement.tells_of_node (by decide) is ?_ ?_
    · simp [mark₁.fine, mark₂.fine, mark₄.fine, mark₆.fine, tells.expression, tells'.fine, tells''.fine]
    · simp [mark₁.assigns, mark₂.assigns, mark₄.assigns, mark₆.assigns, tells.assigns, tells', tells'',
        Statement.parts]

/-- What stays of the end of a function. -/
theorem return_alternative
    (h : List.Forall₂ (readGrammar.TermHas (ShakenTo ok))
      [word "return", { one 12 with multiplicity := .optional, label := some "value" }, word ";"]
      children) :
    Kind.statement.Stays ok (language.shaker.shakeInner (.node "return" none (some 0) children)) := by
  obtain _ | ⟨first, _ | ⟨value, _ | ⟨last, _ | _⟩⟩⟩ := h
  obtain ⟨w, eq₁, -, label₁, mark₁, -⟩ := stays_word first
  obtain ⟨us, eq₂, held⟩ := stays_optional value rfl (by decide)
  obtain ⟨r, eq₃, -, label₃, mark₃, -⟩ := stays_word last
  refine ⟨_, Shake.shakeInner_kept (by decide) rfl, rfl, rfl, ?_⟩
  rw [Shake.shakeList, Shake.shakeList, Shake.shakeList, Shake.shakeList, eq₁, eq₂, eq₃]
  rcases held with rfl | ⟨u, rfl, -, isExpression⟩
  · have is : Statement.ofTree (.node "return" none (some 0) [w, r]) = .ret none := by
      rw [Statement.ofTree]
      show Statement.ret _ = _
      simp [Tree.labeled?, Tree.children, label₁, label₃]
    refine Statement.tells_of_node (by decide) is ?_ ?_
    · simp [mark₁.fine, mark₃.fine]
    · simp [mark₁.assigns, mark₃.assigns]
  · have labeled : Shake.inheritLabel (some "value") u = u.withLabel (some "value") := by
      rw [Shake.inheritLabel, isExpression.label]
      rfl
    rw [List.map_singleton, labeled]
    have is : Statement.ofTree (.node "return" none (some 0) [w, u.withLabel (some "value"), r])
        = .ret (some (Reading.ofTree u).expression) := by
      rw [Statement.ofTree]
      show Statement.ret _ = _
      simp [Tree.labeled?, Tree.children, label₁, Reading.ofTree_withLabel]
    refine Statement.tells_of_node (by decide) is ?_ ?_
    · simp [mark₁.fine, mark₃.fine, isExpression.tells.expression]
    · simp [mark₁.assigns, mark₃.assigns, isExpression.tells.assigns]

/-- What stays of an assignment. -/
theorem assignment_alternative
    (h : List.Forall₂ (readGrammar.TermHas (ShakenTo ok))
      [{ symbol := .terminal "identifier", label := some "target" }, word "=",
        { one 12 with label := some "value" }, word ";"] children) :
    Kind.statement.Stays ok (language.shaker.shakeInner (.node "assignment" none (some 0) children)) := by
  obtain _ | ⟨target, _ | ⟨equals, _ | ⟨value, _ | ⟨last, _ | _⟩⟩⟩⟩ := h
  obtain ⟨n, eq₁, -, label₁, mark₁⟩ := stays_name target
  obtain ⟨e, eq₂, -, label₂, mark₂, -⟩ := stays_word equals
  obtain ⟨v, eq₃, label₃, -, tells⟩ := stays_expression rfl value
  obtain ⟨r, eq₄, -, -, mark₄, -⟩ := stays_word last
  refine ⟨_, Shake.shakeInner_kept (by decide) rfl, rfl, rfl, ?_⟩
  rw [Shake.shakeList, Shake.shakeList, Shake.shakeList, Shake.shakeList, Shake.shakeList, eq₁, eq₂, eq₃,
    eq₄]
  have target : (Tree.node "assignment" none (some 0) [n, e, v, r]).labeled? "target" = some n := by
    simp [Tree.labeled?, Tree.children, label₁]
  have value : (Tree.node "assignment" none (some 0) [n, e, v, r]).labeled? "value" = some v := by
    simp [Tree.labeled?, Tree.children, label₁, label₂, label₃]
  refine Statement.tells_assignment target value ?_
  simp [mark₁.fine, mark₂.fine, mark₄.fine, tells.expression]

/-- What stays of what puts a word into memory. -/
theorem store_alternative (zero : ok 0)
    (h : List.Forall₂ (readGrammar.TermHas (ShakenTo ok))
      [word "[", { one 12 with label := some "address" }, word "]", word "=",
        { one 12 with label := some "value" }, word ";"] children) :
    Kind.statement.Stays ok (language.shaker.shakeInner (.node "store" none (some 0) children)) := by
  obtain _ | ⟨left, _ | ⟨place, _ | ⟨right, _ | ⟨equals, _ | ⟨value, _ | ⟨last, _ | _⟩⟩⟩⟩⟩⟩ := h
  obtain ⟨l, eq₁, -, label₁, mark₁, -⟩ := stays_word left
  obtain ⟨a, eq₂, label₂, -, tells⟩ := stays_expression rfl place
  obtain ⟨r, eq₃, -, label₃, mark₃, -⟩ := stays_word right
  obtain ⟨e, eq₄, -, label₄, mark₄, -⟩ := stays_word equals
  obtain ⟨v, eq₅, label₅, -, tells'⟩ := stays_expression rfl value
  obtain ⟨s, eq₆, -, -, mark₆, -⟩ := stays_word last
  refine ⟨_, Shake.shakeInner_kept (by decide) rfl, rfl, rfl, ?_⟩
  rw [Shake.shakeList, Shake.shakeList, Shake.shakeList, Shake.shakeList, Shake.shakeList, Shake.shakeList,
    Shake.shakeList, eq₁, eq₂, eq₃, eq₄, eq₅, eq₆]
  have is : Statement.ofTree (.node "store" none (some 0) [l, a, r, e, v, s])
      = .store (Reading.ofTree a).address.1 (Reading.ofTree a).address.2 a.span
        (Reading.ofTree v).expression := by
    rw [Statement.ofTree]
    show Statement.storing _ = _
    simp [Statement.storing, Tree.labeled?, Tree.children, label₁, label₂, label₃, label₄, label₅]
  refine Statement.tells_of_node (by decide) is ?_ ?_
  · have address := Reading.fine_address zero tells
    simp [mark₁.fine, mark₃.fine, mark₄.fine, mark₆.fine, tells'.expression, ← address, and_assoc]
  · simp [mark₁.assigns, mark₃.assigns, mark₄.assigns, mark₆.assigns, tells.assigns, tells'.assigns]

/-- What stays of a call whose value is not used. -/
theorem call_statement_alternative
    (h : List.Forall₂ (readGrammar.TermHas (ShakenTo ok)) [one 20, word ";"] children) :
    Kind.statement.Stays ok
      (language.shaker.shakeInner (.node "call_statement" none (some 0) children)) := by
  obtain _ | ⟨call, _ | ⟨last, _ | _⟩⟩ := h
  obtain ⟨u, eq, named, isExpression⟩ : Kind.call.Stays ok _ := stays_of_one call rfl rfl
  obtain ⟨r, eq', -, -, mark, -⟩ := stays_word last
  refine ⟨_, Shake.shakeInner_kept (by decide) rfl, rfl, rfl, ?_⟩
  rw [Shake.shakeList, Shake.shakeList, Shake.shakeList, eq, eq']
  have is : Statement.ofTree (.node "call_statement" none (some 0) [u, r])
      = .call (Reading.ofTree u).expression := by
    rw [Statement.ofTree]
    unfold Statement.ofParts
    rw [Tree.children, List.find?_cons_of_pos (by rw [named]; rfl)]
    rfl
  refine Statement.tells_of_node (by decide) is ?_ ?_
  · simp [mark.fine, isExpression.tells.expression]
  · simp [mark.assigns, isExpression.tells.assigns]

/-- What stays of an empty statement. -/
theorem empty_alternative
    (h : List.Forall₂ (readGrammar.TermHas (ShakenTo ok)) [word ";"] children) :
    Kind.statement.Stays ok (language.shaker.shakeInner (.node "empty" none (some 0) children)) := by
  obtain _ | ⟨only, _ | _⟩ := h
  obtain ⟨r, eq, -, -, mark, -⟩ := stays_word only
  refine ⟨_, Shake.shakeInner_kept (by decide) rfl, rfl, rfl, ?_⟩
  rw [Shake.shakeList, Shake.shakeList, eq]
  have is : Statement.ofTree (.node "empty" none (some 0) [r]) = .skip := by
    rw [Statement.ofTree]
    rfl
  refine Statement.tells_of_node (by decide) is ?_ ?_
  · simp [mark.fine]
  · simp [mark.assigns]

/-! ### Functions -/

/-- What stays of what is to be done otherwise. -/
theorem otherwise_alternative
    (h : List.Forall₂ (readGrammar.TermHas (ShakenTo ok))
      [word "else", { one 3 with label := some "otherwise" }] children) :
    Kind.otherwise.Stays ok (language.shaker.shakeInner (.node "if:0" none (some 0) children)) := by
  obtain _ | ⟨first, _ | ⟨body, _ | _⟩⟩ := h
  obtain ⟨w, eq, -, unlabeled, mark, -⟩ := stays_word first
  obtain ⟨b, eq', label, -, tells⟩ := stays_statement body
  refine ⟨w, b, ?_, unlabeled, mark, label, tells⟩
  rw [Shake.shakeInner_spliced (by decide), Shake.shakeList, Shake.shakeList, Shake.shakeList, eq, eq']
  rfl

/-- What stays of a parameter after others. -/
theorem parameter_alternative
    (h : List.Forall₂ (readGrammar.TermHas (ShakenTo ok)) [word ",", { symbol := .terminal "identifier" }]
      children) :
    Kind.parameter.Stays ok (language.shaker.shakeInner (.node "parameters:0" none (some 0) children)) := by
  obtain _ | ⟨comma, _ | ⟨name, _ | _⟩⟩ := h
  obtain ⟨c, eq, -, -, mark, -⟩ := stays_word comma
  obtain ⟨n, eq', -, -, mark'⟩ := stays_name name
  rw [Shake.shakeInner_spliced (by decide), Shake.shakeList, Shake.shakeList, Shake.shakeList, eq, eq']
  exact List.forall_mem_cons.2 ⟨mark.fine, List.forall_mem_singleton.2 mark'.fine⟩

/-- What stays of the parameters of a function. -/
theorem parameters_alternative
    (h : List.Forall₂ (readGrammar.TermHas (ShakenTo ok))
      [{ symbol := .terminal "identifier" }, { one 26 with multiplicity := .star }] children) :
    Kind.parameters.Stays ok (language.shaker.shakeInner (.node "parameters" none (some 0) children)) := by
  obtain _ | ⟨first, _ | ⟨others, _ | _⟩⟩ := h
  obtain ⟨n, eq, -, -, mark⟩ := stays_name first
  obtain ⟨items, isList, -, shaken, unlabeled⟩ := others.of_often nofun
  have each : ∀ t ∈ items, ∃ us, language.shaker.shakeInner t = us ∧ ∀ u ∈ us, u.Fine ok := by
    intro t mem
    have here : Kind.parameter.Stays ok _ := shaken t mem
    rw [← unlabeled t mem, withLabel_self] at here
    exact ⟨_, rfl, here⟩
  obtain ⟨names, eq', fine⟩ := Shake.exists_shakeList each
  have held := (congrArg language.shaker.shakeInner isList).trans (Shake.shakeInner_spliced (by decide))
  refine ⟨_, Shake.shakeInner_kept (by decide) rfl, rfl, ?_⟩
  rw [Shake.shakeList, Shake.shakeList, Shake.shakeList, eq, held, eq', List.append_nil,
    List.singleton_append, Tree.fine_node, List.forall_mem_cons]
  refine ⟨mark.fine, fun u mem => ?_⟩
  obtain ⟨us, among, mem⟩ := List.mem_flatMap.1 mem
  exact fine us among u mem

/-- What stays of a function. -/
theorem function_alternative
    (h : List.Forall₂ (readGrammar.TermHas (ShakenTo ok))
      [word "fn", { symbol := .terminal "identifier", label := some "name" }, word "(",
        { one 2 with multiplicity := .optional }, word ")", { one 3 with label := some "body" }] children) :
    Kind.function.Stays ok (language.shaker.shakeInner (.node "function" none (some 0) children)) := by
  obtain _ | ⟨first, _ | ⟨name, _ | ⟨left, _ | ⟨parameters, _ | ⟨right, _ | ⟨body, _ | _⟩⟩⟩⟩⟩⟩ := h
  obtain ⟨w, eq₁, -, label₁, mark₁, -⟩ := stays_word first
  obtain ⟨n, eq₂, -, label₂, mark₂⟩ := stays_name name
  obtain ⟨l, eq₃, -, label₃, mark₃, -⟩ := stays_word left
  obtain ⟨us, eq₄, held⟩ := stays_optional_unlabeled parameters rfl rfl (by decide)
  obtain ⟨r, eq₅, -, label₅, mark₅, -⟩ := stays_word right
  obtain ⟨b, eq₆, label₆, -, tells⟩ := stays_statement body
  refine ⟨_, Shake.shakeInner_kept (by decide) rfl, rfl, ?_⟩
  rw [Shake.shakeList, Shake.shakeList, Shake.shakeList, Shake.shakeList, Shake.shakeList, Shake.shakeList,
    Shake.shakeList, eq₁, eq₂, eq₃, eq₄, eq₅, eq₆]
  rcases held with rfl | ⟨u, rfl, label₄, fine₄⟩
  · refine Function.tells_ofTree ?_ tells ?_
    · simp [Tree.labeled?, Tree.children, label₁, label₂, label₃, label₅, label₆]
    · simp [mark₁.fine, mark₂.fine, mark₃.fine, mark₅.fine]
  · refine Function.tells_ofTree ?_ tells ?_
    · simp [Tree.labeled?, Tree.children, label₁, label₂, label₃, label₄, label₅, label₆]
    · simp [mark₁.fine, mark₂.fine, mark₃.fine, fine₄, mark₅.fine]

/-- What stays of a program. -/
theorem program_alternative
    (h : List.Forall₂ (readGrammar.TermHas (ShakenTo ok)) [{ one 1 with multiplicity := .plus }] children) :
    Kind.program.Stays ok (language.shaker.shakeInner (.node "b" none (some 0) children)) := by
  obtain _ | ⟨functions, _ | _⟩ := h
  obtain ⟨items, isList, -, shaken, unlabeled⟩ := functions.of_often nofun
  have each : ∀ t ∈ items, ∃ u, language.shaker.shakeInner t = [u] ∧ u.name = "function"
      ∧ (Function.ofTree u).Tells ok u := by
    intro t mem
    have here : Kind.function.Stays ok _ := shaken t mem
    rw [← unlabeled t mem, withLabel_self] at here
    exact here
  obtain ⟨us, eq, tells⟩ := Shake.exists_shakeList each
  have held := (congrArg language.shaker.shakeInner isList).trans (Shake.shakeInner_spliced (by decide))
  refine ⟨_, Shake.shakeInner_kept (by decide) rfl, ?_⟩
  rw [Shake.shakeList, Shake.shakeList, held, eq, List.append_nil, List.flatMap_singleton', Tree.fine_node,
    Program.ofTree, Tree.children, List.filter_eq_self.2 fun u mem => beq_iff_eq.2 (tells u mem).1,
    List.forall_mem_map, List.forall_mem_map]
  exact ⟨forall₂_congr fun u mem => (tells u mem).2.fine, fun u mem => (tells u mem).2.assigns⟩

/-! ### All rules -/

/-- What stays of the tree of an alternative. -/
theorem stays_of_choice {id : Nat} {alternatives : List (List Term)} (zero : ok 0)
    (found : readGrammar.rules[id]? = some ⟨name, .choice alternatives⟩)
    (among : alternatives[index]? = some terms)
    (h : List.Forall₂ (readGrammar.TermHas (ShakenTo ok)) terms children) :
    Stays ok (.rule id) (language.shaker.shakeInner (.node name none (some index) children)) := by
  -- the rules by their numbers; those that groups were lowered to come last
  match id, found with
  | 0, found =>
    obtain ⟨rfl, rfl, rfl⟩ := Grammar.only_inj found among
    exact program_alternative h
  | 1, found =>
    obtain ⟨rfl, rfl, rfl⟩ := Grammar.only_inj found among
    exact function_alternative h
  | 2, found =>
    obtain ⟨rfl, rfl, rfl⟩ := Grammar.only_inj found among
    exact parameters_alternative h
  | 3, found =>
    obtain ⟨rfl, rfl⟩ := Grammar.choice_inj found
    match index, among with
    | 0, among | 1, among | 2, among | 3, among | 4, among | 5, among | 6, among | 7, among =>
      obtain rfl := Option.some.inj among
      obtain _ | ⟨only, _ | _⟩ := h
      have here := stays_of_one only rfl rfl
      rw [Shake.shakeInner_spliced (by decide), Shake.shakeList, Shake.shakeList, List.append_nil]
      exact here
  | 4, found =>
    obtain ⟨rfl, rfl, rfl⟩ := Grammar.only_inj found among
    exact block_alternative h
  | 5, found =>
    obtain ⟨rfl, rfl, rfl⟩ := Grammar.only_inj found among
    exact while_alternative h
  | 6, found =>
    obtain ⟨rfl, rfl, rfl⟩ := Grammar.only_inj found among
    exact if_alternative h
  | 7, found =>
    obtain ⟨rfl, rfl, rfl⟩ := Grammar.only_inj found among
    exact return_alternative h
  | 8, found =>
    obtain ⟨rfl, rfl, rfl⟩ := Grammar.only_inj found among
    exact assignment_alternative h
  | 9, found =>
    obtain ⟨rfl, rfl, rfl⟩ := Grammar.only_inj found among
    exact store_alternative zero h
  | 10, found =>
    obtain ⟨rfl, rfl, rfl⟩ := Grammar.only_inj found among
    exact call_statement_alternative h
  | 11, found =>
    obtain ⟨rfl, rfl, rfl⟩ := Grammar.only_inj found among
    exact empty_alternative h
  | 12, found | 13, found | 14, found | 15, found | 16, found | 17, found =>
    obtain ⟨rfl, rfl, rfl⟩ := Grammar.only_inj found among
    exact expression_chain (by decide) (by decide) (by decide) rfl rfl h
  | 18, found =>
    obtain ⟨rfl, rfl⟩ := Grammar.choice_inj found
    exact expression_unary among h
  | 19, found =>
    obtain ⟨rfl, rfl⟩ := Grammar.choice_inj found
    exact primary_alternative among h
  | 20, found =>
    obtain ⟨rfl, rfl, rfl⟩ := Grammar.only_inj found among
    exact call_alternative h
  | 21, found =>
    obtain ⟨rfl, rfl, rfl⟩ := Grammar.only_inj found among
    exact arguments_alternative h
  | 22, found =>
    obtain ⟨rfl, rfl, rfl⟩ := Grammar.only_inj found among
    exact load_alternative zero h
  -- an alias has no alternatives
  | 23, found | 24, found | 25, found => cases found
  | 26, found =>
    obtain ⟨rfl, rfl, rfl⟩ := Grammar.only_inj found among
    exact parameter_alternative h
  | 27, found =>
    obtain ⟨rfl, rfl, rfl⟩ := Grammar.only_inj found among
    exact otherwise_alternative h
  | 28, found | 29, found =>
    obtain ⟨rfl, rfl, rfl⟩ := Grammar.only_inj found among
    exact link_word (by decide) (by decide) rfl h
  | 30, found | 32, found | 34, found | 36, found =>
    obtain ⟨rfl, rfl, rfl⟩ := Grammar.only_inj found among
    exact link_operator (by decide) rfl rfl h
  | 31, found =>
    obtain ⟨rfl, rfl⟩ := Grammar.choice_inj found
    exact operator_words ["==", "!="] (by decide) (by decide) among h
  | 33, found =>
    obtain ⟨rfl, rfl⟩ := Grammar.choice_inj found
    exact operator_words ["<", "<=", ">", ">="] (by decide) (by decide) among h
  | 35, found =>
    obtain ⟨rfl, rfl⟩ := Grammar.choice_inj found
    exact operator_words ["+", "-"] (by decide) (by decide) among h
  | 37, found =>
    obtain ⟨rfl, rfl⟩ := Grammar.choice_inj found
    exact operator_words ["*", "/", "%"] (by decide) (by decide) among h
  | 38, found =>
    obtain ⟨rfl, rfl⟩ := Grammar.choice_inj found
    exact sign_alternative among h
  | 39, found =>
    obtain ⟨rfl, rfl, rfl⟩ := Grammar.only_inj found among
    exact argument_alternative h

/-- What can be said about a number. -/
theorem Reading.tells_integer {token : Token} (is : token.type = "decimal_integer")
    {terminal : Option String} :
    (ofTree (.leaf "integer" none terminal token)).Tells ok (.leaf "integer" none terminal token) := by
  have number : token.Fine ok ↔ ∃ n, token.int? = some n ∧ ok n.natAbs := forall_prop_of_true is
  cases known : token.int? with
  | none =>
    rw [known] at number
    refine tells_of_expression ?_ rfl rfl (by simp [ofTree, ofParts, literalOf, Tree.token?, known])
    simp [ofTree, ofParts, expressionOf, Tree.token?, Tree.name, known, number]
  | some n =>
    rw [known] at number
    refine ⟨?_, ?_, ?_, rfl⟩
    · simp [ofTree, ofParts, expressionOf, Tree.token?, Tree.name, known, number]
    · intro _ found
      cases found
    · simp [ofTree, ofParts, literalOf, Tree.token?, known, number]

/-- What stays of a token by another name. -/
theorem stays_of_alias {id : Nat} {type : String} {token : Token}
    (found : readGrammar.rules[id]? = some ⟨name, .aliasOf type⟩) (is : token.type = type) :
    Stays ok (.rule id) [.leaf name none (some type) token] := by
  match id, found with
  | 0, found | 1, found | 2, found | 3, found | 4, found | 5, found | 6, found | 7, found
  | 8, found | 9, found | 10, found | 11, found | 12, found | 13, found | 14, found | 15, found
  | 16, found | 17, found | 18, found | 19, found | 20, found | 21, found | 22, found | 26, found
  | 27, found | 28, found | 29, found | 30, found | 31, found | 32, found | 33, found | 34, found
  | 35, found | 36, found | 37, found | 38, found | 39, found => cases found
  | 23, found =>
    obtain ⟨rfl, rfl⟩ := Grammar.alias_inj found
    have other : token.Fine ok := Token.fine_of_type (is ▸ by decide)
    refine ⟨_, rfl, rfl, Reading.tells_of_expression ?_ rfl rfl rfl⟩
    rw [Tree.fine_leaf]
    exact iff_of_true Expression.fine_variable other
  | 24, found =>
    obtain ⟨rfl, rfl⟩ := Grammar.alias_inj found
    exact ⟨_, rfl, rfl, Reading.tells_integer is⟩
  | 25, found =>
    obtain ⟨rfl, rfl⟩ := Grammar.alias_inj found
    have other : token.Fine ok := Token.fine_of_type (is ▸ by decide)
    refine ⟨_, rfl, rfl, Reading.tells_of_expression ?_ rfl rfl rfl⟩
    rw [Tree.fine_leaf]
    exact iff_of_true Expression.fine_text other

/-- **What stays of a tree** of a symbol, if its tokens have the texts that their types say they have. -/
theorem shakenTo_of_derives {s : Symbol} (zero : ok 0) (derived : readGrammar.Derives s t)
    (each : ∀ token ∈ t.tokens, token.IsExact) : ShakenTo ok s t := by
  refine derived.induct ?terminal ?another ?choice each
  case terminal =>
    intro type label token is isExact
    rw [ShakenTo, Tree.withLabel, Shake.shakeInner]
    exact ⟨token, rfl, is, isExact⟩
  case another =>
    intro id name type label token found is _
    rw [ShakenTo, Tree.withLabel, Shake.shakeInner]
    exact stays_of_alias found is
  case choice =>
    intro id name alternatives index terms label children found among h
    exact stays_of_choice zero found among h

end

end Polyglot.B
