import Polyglot.B.Language
import Polyglot.Proofs.Expr.Twins
import Polyglot.Proofs.Language.Grammars
import Polyglot.Proofs.Lexis.Spelling
import Polyglot.Proofs.Parsing.Derivation
import Polyglot.Proofs.Tree.Shaking
import Polyglot.Proofs.Tree.Unplaced

/-!
# Trees of expressions as trees of B

The grammar of expressions is a part of that of B, up to a few names: a number is called an
integer there, a minus sign stands in a tree of its own, and what is in brackets is wrapped in
the levels of operators that expressions do not have. Which tree of B *corresponds* to a
tree of an expression is told by how the latter is put together (`Corresponds`), and it may have its
tokens at other places of a source.

Every tree of an expression has a counterpart, for any tokens that agree with its own
(`exists_counterpart`), and if both are shaken, what is read from them are twins (`Corresponds.twins`).
-/

namespace Polyglot

open Lexicon (mark)

namespace Expr

/-! ## The phrases of expressions -/

/-- What an expression is made of. -/
inductive Level where
  | unary | product | sum

/-- Phrases that are chains of operators. -/
inductive Chain where
  | product | sum

namespace Chain

/-- The chain as a phrase. -/
def level : Chain → Level
  | product => .product
  | sum => .sum

/-- What stands between the operators. -/
def operand : Chain → Level
  | product => .unary
  | sum => .product

/-- The name of its trees. -/
def name : Chain → String
  | product => "product"
  | sum => "sum"

/-- The signs of its operators. -/
def signs : Chain → List String
  | product => ["*", "/", "%"]
  | sum => ["+", "-"]

end Chain

/-- An operator in a chain, with what comes after it. -/
structure Link where
  /-- The sign of the operator. -/
  sign : String
  /-- The token of the sign. -/
  token : Token
  /-- The tree of what comes after it. -/
  operand : Tree

namespace Chain

variable (c : Chain)

/-- The tree of an operator with what comes after it. -/
def linkTree (link : Link) : Tree :=
  .node (c.name ++ ":0") none (some 0)
    [.node (c.name ++ ":1") none (some (c.signs.idxOf link.sign)) [.ofToken link.token], link.operand]

/-- The tree of a chain of operators. -/
def tree (first : Tree) (links : List Link) : Tree :=
  .node c.name none (some 0) [first, .node (c.name ++ ":0*") none none (links.map c.linkTree)]

theorem tokens_linkTree (link : Link) :
    (c.linkTree link).tokens = link.token :: link.operand.tokens := by
  simp [linkTree, Tree.ofToken]

theorem tokens_tree (first : Tree) (links : List Link) :
    (c.tree first links).tokens
      = first.tokens ++ links.flatMap fun link => link.token :: link.operand.tokens := by
  simp [tree, List.flatMap_map, tokens_linkTree]

end Chain

/-- The tree of a phrase without a sign before it. -/
def plainTree (choice : Nat) (children : List Tree) : Tree :=
  .node "unary" none (some 1) [.node "primary" none (some choice) children]

/-- The tree of a sum where B may have an operator of a lower level. -/
def wrapped (sum : Tree) : Tree :=
  let around (name : String) (t : Tree) : Tree :=
    .node name none (some 0) [t, .node (name ++ ":0*") none none []]
  around "expression" (around "conjunction" (around "equality" (around "comparison" sum)))

theorem tokens_wrapped (sum : Tree) : (wrapped sum).tokens = sum.tokens := by
  simp [wrapped]

/-- Whether two tokens are those of an exact text. -/
def AreMarks (text : String) (t t' : Token) : Prop := t.unplaced = mark text ∧ t'.unplaced = mark text

/-- Whether a tree of B says the same as a tree of a phrase, the variables of which are among
some names. -/
inductive Corresponds (names : List String) : Level → Tree → Tree → Prop
  /-- A number. -/
  | number {t t' : Token} (is : t'.type = "decimal_integer") (same : t.unplaced = t'.unplaced) :
      Corresponds names .unary (plainTree 0 [.leaf "number" none (some "decimal_integer") t])
        (plainTree 3 [.leaf "integer" none (some "decimal_integer") t'])
  /-- A variable. -/
  | variable {t t' : Token} (is : t'.type = "identifier") (same : t.unplaced = t'.unplaced)
      (mem : t'.lexeme ∈ names) :
      Corresponds names .unary (plainTree 1 [.leaf "variable" none (some "identifier") t])
        (plainTree 2 [.leaf "variable" none (some "identifier") t'])
  /-- A sum in brackets. -/
  | group {l l' r r' : Token} {u u' : Tree} (opens : AreMarks "(" l l') (closes : AreMarks ")" r r')
      (inner : Corresponds names .sum u u') :
      Corresponds names .unary (plainTree 2 [.ofToken l, u, .ofToken r])
        (plainTree 5 [.ofToken l', wrapped u', .ofToken r'])
  /-- A sign before a phrase. -/
  | negate {t t' : Token} {u u' : Tree} (minus : AreMarks "-" t t')
      (operand : Corresponds names .unary u u') :
      Corresponds names .unary (.node "unary" none (some 0) [.ofToken t, u])
        (.node "unary" none (some 0) [.node "unary:0" none (some 1) [.ofToken t'], u'])
  /-- A chain of operators. -/
  | chain {c : Chain} {first first' : Tree} {links : List (Link × Link)}
      (head : Corresponds names c.operand first first')
      (signs : ∀ k ∈ links, k.1.sign ∈ c.signs ∧ k.2.sign = k.1.sign
        ∧ AreMarks k.1.sign k.1.token k.2.token)
      (operands : ∀ k ∈ links, Corresponds names c.operand k.1.operand k.2.operand) :
      Corresponds names c.level (c.tree first (links.map (·.1))) (c.tree first' (links.map (·.2)))

/-! ## Shaken trees -/

section

variable {s : Shake} (unchained : s.chain = [])
include unchained

theorem shakeInner_plainTree (kept : s.isSpliced "unary" = false) (spliced : s.isSpliced "primary")
    (choice : Nat) (children : List Tree) :
    s.shakeInner (plainTree choice children)
      = [.node "unary" none (some 1) (s.shakeList children)] := by
  rw [plainTree, Shake.shakeInner_kept kept unchained, Shake.shakeList,
    Shake.shakeInner_spliced spliced, Shake.shakeList, List.append_nil]

theorem shakeInner_tree {c : Chain} (kept : s.isSpliced c.name = false) (first : Tree)
    (links : List Link) :
    s.shakeInner (c.tree first links) = [.node c.name none (some 0)
      (s.shakeInner first ++ links.flatMap fun k => .ofToken k.token :: s.shakeInner k.operand)] := by
  have generated : s.isSpliced (c.name ++ ":0*") ∧ s.isSpliced (c.name ++ ":0")
      ∧ s.isSpliced (c.name ++ ":1") := by
    cases c <;> exact ⟨rfl, rfl, rfl⟩
  obtain ⟨several, one, sign⟩ := generated
  have inner : s.shakeList (links.map c.linkTree)
      = links.flatMap fun k => .ofToken k.token :: s.shakeInner k.operand := by
    induction links with
    | nil => rfl
    | cons k links ih =>
      rw [List.map_cons, Shake.shakeList, ih, Chain.linkTree, Shake.shakeInner_spliced one,
        Shake.shakeList, Shake.shakeInner_spliced sign, Shake.shakeList, Shake.shakeList,
        Shake.shakeList, Shake.shakeList, Tree.ofToken, Shake.shakeInner, List.append_nil,
        List.append_nil]
      rfl
  rw [Chain.tree, Shake.shakeInner_kept kept unchained, Shake.shakeList, Shake.shakeList,
    Shake.shakeInner_spliced several, inner, Shake.shakeList, List.append_nil]

end

theorem text_leaf (name : String) (label terminal : Option String) (token : Token) :
    (Tree.leaf name label terminal token).text = token.lexeme := by
  cases solid : token.isEmpty with
  | false => exact Tree.text_of_tokens (Tree.tokens_leaf ..) solid
  | true =>
    simp [Tree.text, Tree.solidTokens, solid]
    exact String.isEmpty_iff.1 solid

/-! ### What is read from them -/

section

variable {label : Option String} {choice : Option Nat}

theorem Chain.ofTree_node (c : Chain) (first : Tree) (rest : List Tree) :
    ofTree (.node c.name label choice (first :: rest))
      = ofPairs (.node c.name label choice (first :: rest)) (ofTree first) rest := by
  cases c <;> simp [Chain.name, ofTree, ofChain]

theorem Chain.expression_node (c : Chain) (first : Tree) (rest : List Tree) :
    (B.Reading.ofTree (.node c.name label choice (first :: rest))).expression
      = B.Reading.chainFrom (.node c.name label choice (first :: rest))
          (B.Reading.ofTree first).expression (B.Reading.partsOf rest) := by
  cases c <;> simp [Chain.name, B.Reading.ofTree, B.Reading.partsOf, B.Reading.ofParts,
    B.Reading.expressionOf, B.Reading.chain, Tree.name]

variable {l r : Tree}

theorem ofTree_group (opens : isToken l "(") (closes : isToken r ")") (t : Tree) :
    ofTree (.node "unary" label choice [l, t, r]) = ofTree t := by
  simp [ofTree, ofUnary, opens, closes]

theorem expression_group (opens : B.isSign l "(") (closes : B.isSign r ")") (t : Tree) :
    (B.Reading.ofTree (.node "unary" label choice [l, t, r])).expression
      = (B.Reading.ofTree t).expression := by
  simp [B.Reading.ofTree, B.Reading.partsOf, B.Reading.ofParts, B.Reading.expressionOf,
    B.Reading.unary, Tree.name, opens, closes]

theorem ofTree_negate (minus : isToken l "-") (t : Tree) :
    ofTree (.node "unary" label choice [l, t]) = .negate (ofTree t) := by
  simp [ofTree, ofUnary, minus]

theorem expression_negate (minus : B.isSign l "-") (t : Tree) :
    (B.Reading.ofTree (.node "unary" label choice [l, t])).expression
      = .negate (B.Reading.ofTree t).expression := by
  simp [B.Reading.ofTree, B.Reading.partsOf, B.Reading.ofParts, B.Reading.expressionOf,
    B.Reading.unary, Tree.name, minus]

theorem ofTree_single (t : Tree) : ofTree (.node "unary" label choice [t]) = ofTree t := by
  simp [ofTree, ofUnary]

theorem expression_single (t : Tree) :
    (B.Reading.ofTree (.node "unary" label choice [t])).expression
      = (B.Reading.ofTree t).expression := by
  simp [B.Reading.ofTree, B.Reading.partsOf, B.Reading.ofParts, B.Reading.expressionOf,
    B.Reading.unary, Tree.name]

end

/-- The signs of chains are those of the same operators in both languages. -/
theorem Chain.exists_operator (c : Chain) {sign : String} (mem : sign ∈ c.signs) :
    ∃ op, Operator.ofSign? sign = some op ∧ B.Operator.ofSign? sign = some op.inB := by
  cases c with
  | product =>
    simp only [signs, List.mem_cons, List.not_mem_nil, or_false] at mem
    rcases mem with rfl | rfl | rfl
    · exact ⟨.mul, rfl, rfl⟩
    · exact ⟨.div, rfl, rfl⟩
    · exact ⟨.mod, rfl, rfl⟩
  | sum =>
    simp only [signs, List.mem_cons, List.not_mem_nil, or_false] at mem
    rcases mem with rfl | rfl
    · exact ⟨.add, rfl, rfl⟩
    · exact ⟨.sub, rfl, rfl⟩

/-- Whether shaking makes one tree of each of two trees, and what is read from them are twins. -/
def ShakenTwins (names : List String) (t t' : Tree) : Prop :=
  ∃ u u', language.shaker.shakeInner t = [u] ∧ B.language.shaker.shakeInner t' = [u']
    ∧ Twins names (ofTree u) (B.Reading.ofTree u').expression

variable {names : List String}

theorem shakenLeaf {s : Shake} (unchained : s.chain = [])
    (kept : s.isSpliced "unary" = false) (spliced : s.isSpliced "primary")
    (choice : Nat) (name : String) (terminal : Option String) (token : Token) :
    s.shakeInner (plainTree choice [.leaf name none terminal token])
      = [.node "unary" none (some 1) [.leaf name none terminal token]] := by
  rw [shakeInner_plainTree unchained kept spliced, Shake.shakeList, Shake.shakeInner,
    Shake.shakeList, List.singleton_append]

theorem shakeList_around {s : Shake} {t x : Tree} (shaken : s.shakeInner t = [x]) (l r : Token) :
    s.shakeList [.ofToken l, t, .ofToken r] = [.ofToken l, x, .ofToken r] := by
  simp [Shake.shakeList, Tree.ofToken, Shake.shakeInner, shaken]

/-- What shaking makes of a wrapped sum. -/
def leveled (label : Option String) (sum : Tree) : Tree :=
  .node "expression" label (some 0) [.node "conjunction" none (some 0) [.node "equality" none (some 0)
    [.node "comparison" none (some 0) [sum]]]]

theorem shakeInner_wrapped (label : Option String) {t x : Tree}
    (shaken : B.language.shaker.shakeInner t = [x]) :
    B.language.shaker.shakeInner ((wrapped t).withLabel label) = [leveled label x] := by
  have level (name : String) {label : Option String} {t x : Tree}
      (kept : B.language.shaker.isSpliced name = false)
      (generated : B.language.shaker.isSpliced (name ++ ":0*"))
      (shaken : B.language.shaker.shakeInner t = [x]) :
      B.language.shaker.shakeInner (.node name label (some 0) [t, .node (name ++ ":0*") none none []])
        = [.node name label (some 0) [x]] := by
    rw [Shake.shakeInner_kept kept rfl, Shake.shakeList, Shake.shakeList,
      Shake.shakeInner_spliced generated, Shake.shakeList, shaken]
    rfl
  exact level "expression" (by decide) (by decide) <| level "conjunction" (by decide) (by decide) <|
    level "equality" (by decide) (by decide) <| level "comparison" (by decide) (by decide) shaken

theorem expression_leveled (label : Option String) (sum : Tree) :
    (B.Reading.ofTree (leveled label sum)).expression = (B.Reading.ofTree sum).expression := by
  simp [leveled, B.Reading.ofTree, B.Reading.partsOf, B.Reading.ofParts, B.Reading.expressionOf,
    B.Reading.chain, B.Reading.chainFrom, Tree.name]

theorem areSigns {text : String} {t t' : Token} (marks : AreMarks text t t') :
    isToken (.ofToken t) text ∧ B.isSign (.ofToken t') text := by
  have lexeme : t.lexeme = text := congrArg Token.lexeme marks.1
  have lexeme' : t'.lexeme = text := congrArg Token.lexeme marks.2
  simp [isToken, B.isSign, Tree.ofToken, Tree.token?, lexeme, lexeme']

/-- Operators with twins on both sides make twins. -/
theorem twins_pairs {c : Chain} {links : List (Link × Link)}
    (signs : ∀ k ∈ links, k.1.sign ∈ c.signs ∧ k.2.sign = k.1.sign
      ∧ AreMarks k.1.sign k.1.token k.2.token)
    (operands : ∀ k ∈ links, ShakenTwins names k.1.operand k.2.operand) (whole whole' : Tree)
    {left : Term} {left' : B.Expression} (start : Twins names left left') :
    Twins names
      (ofPairs whole left
        (links.flatMap fun k => .ofToken k.1.token :: language.shaker.shakeInner k.1.operand))
      (B.Reading.chainFrom whole' left' (B.Reading.partsOf
        (links.flatMap fun k => .ofToken k.2.token :: B.language.shaker.shakeInner k.2.operand))) := by
  induction links generalizing left left' with
  | nil =>
    rw [List.flatMap_nil, List.flatMap_nil, ofPairs, B.Reading.partsOf]
    exact start
  | cons k links ih =>
    obtain ⟨⟨mem, -, marked, marked'⟩, signs⟩ := List.forall_mem_cons.1 signs
    obtain ⟨⟨u, u', eq, eq', twins⟩, operands⟩ := List.forall_mem_cons.1 operands
    obtain ⟨op, sign, sign'⟩ := c.exists_operator mem
    have lexeme : k.1.token.lexeme = k.1.sign := congrArg Token.lexeme marked
    have lexeme' : k.2.token.lexeme = k.1.sign := congrArg Token.lexeme marked'
    rw [← lexeme] at sign
    rw [← lexeme'] at sign'
    have next : Twins names (binaryOf whole (.ofToken k.1.token) u left (ofTree u))
        (B.Reading.binaryOf (.ofToken k.2.token) left' (B.Reading.ofTree u').expression) := by
      have first : Operator.ofSign? (signOf (.ofToken k.1.token)) = some op := sign
      have second : B.Operator.ofSign? (((Tree.ofToken k.2.token).token?.map (·.lexeme)).getD "")
          = some op.inB := sign'
      rw [binaryOf, B.Reading.binaryOf, first, second]
      exact .binary start twins
    rw [List.flatMap_cons, List.flatMap_cons, eq, eq', List.cons_append, List.singleton_append,
      ofPairs, List.cons_append, List.singleton_append, B.Reading.partsOf, B.Reading.partsOf]
    exact ih signs operands next

/-- **A tree and its counterpart** are shaken to trees that twins are read from. -/
theorem Corresponds.twins {level : Level} {t t' : Tree} (h : Corresponds names level t t') :
    ShakenTwins names t t' := by
  induction h with
  | @number t t' is same =>
    have value : t.int? = t'.int? := by simpa using congrArg Token.int? same
    rw [ShakenTwins, shakenLeaf rfl (by decide) (by decide), shakenLeaf rfl (by decide) (by decide)]
    refine ⟨_, _, rfl, rfl, ?_⟩
    rw [ofTree_single, expression_single, ofTree, ofLeaf, value]
    show Twins names _ (B.Reading.expressionOf (.leaf "integer" none (some "decimal_integer") t') [])
    unfold B.Reading.expressionOf
    cases known : t'.int? with
    | some n => simpa [Tree.name, Tree.token?, known] using Twins.number
    | none => simpa [Tree.name, Tree.token?, known] using Twins.invalid
  | @«variable» t t' is same mem =>
    have lexeme : t.lexeme = t'.lexeme := by simpa using congrArg Token.lexeme same
    rw [ShakenTwins, shakenLeaf rfl (by decide) (by decide), shakenLeaf rfl (by decide) (by decide)]
    refine ⟨_, _, rfl, rfl, ?_⟩
    rw [ofTree_single, expression_single, ofTree, ofLeaf, text_leaf, lexeme]
    show Twins names _ (B.Expression.variable (Tree.text _) _)
    rw [text_leaf]
    exact .variable mem
  | @group l l' r r' u u' opens closes inner ih =>
    obtain ⟨x, x', eq, eq', twins⟩ := ih
    have shaken : B.language.shaker.shakeInner (wrapped u') = [leveled none x'] :=
      shakeInner_wrapped none eq'
    obtain ⟨isOpen, isOpen'⟩ := areSigns opens
    obtain ⟨isClosed, isClosed'⟩ := areSigns closes
    rw [ShakenTwins, shakeInner_plainTree rfl (by decide) (by decide),
      shakeInner_plainTree rfl (by decide) (by decide), shakeList_around eq, shakeList_around shaken]
    refine ⟨_, _, rfl, rfl, ?_⟩
    rw [ofTree_group isOpen isClosed, expression_group isOpen' isClosed', expression_leveled]
    exact twins
  | @negate t t' u u' minus operand ih =>
    obtain ⟨x, x', eq, eq', twins⟩ := ih
    obtain ⟨isMinus, isMinus'⟩ := areSigns minus
    have shaken : language.shaker.shakeList [.ofToken t, u] = [.ofToken t, x] := by
      simp [Shake.shakeList, Tree.ofToken, Shake.shakeInner, eq]
    -- the sign has a tree of its own there, which is taken apart
    have shaken' : B.language.shaker.shakeList [.node "unary:0" none (some 1) [.ofToken t'], u']
        = [.ofToken t', x'] := by
      rw [Shake.shakeList, Shake.shakeInner_spliced (by decide)]
      simp [Shake.shakeList, Tree.ofToken, Shake.shakeInner, eq']
    rw [ShakenTwins, Shake.shakeInner_kept (by decide) rfl, Shake.shakeInner_kept (by decide) rfl,
      shaken, shaken']
    refine ⟨_, _, rfl, rfl, ?_⟩
    rw [ofTree_negate isMinus, expression_negate isMinus']
    exact .negate twins
  | @chain c first first' links head signs operands ih ih' =>
    obtain ⟨u, u', eq, eq', start⟩ := ih
    have kept : language.shaker.isSpliced c.name = false := by cases c <;> decide
    have kept' : B.language.shaker.isSpliced c.name = false := by cases c <;> decide
    rw [ShakenTwins, shakeInner_tree rfl kept, shakeInner_tree rfl kept', eq, eq', List.flatMap_map,
      List.flatMap_map]
    refine ⟨_, _, rfl, rfl, ?_⟩
    rw [List.singleton_append, List.singleton_append, c.ofTree_node, c.expression_node]
    exact twins_pairs signs ih' _ _ start

/-! ## Every tree has a counterpart -/

/-- The rule of a phrase. -/
def Level.rule : Level → Nat
  | unary => 3
  | product => 2
  | sum => 1

namespace Chain

variable (c : Chain)

/-- The rule of an operator with what comes after it. -/
def linkRule : Chain → Nat
  | product => 9
  | sum => 7

/-- The rule of the sign of an operator. -/
def signRule : Chain → Nat
  | product => 10
  | sum => 8

theorem rule_at : readGrammar.rules[c.level.rule]? = some ⟨c.name, .choice
    [[B.one c.operand.rule, { B.one c.linkRule with multiplicity := .star }]]⟩ := by
  cases c <;> rfl

theorem linkRule_at : readGrammar.rules[c.linkRule]?
    = some ⟨c.name ++ ":0", .choice [[B.one c.signRule, B.one c.operand.rule]]⟩ := by
  cases c <;> rfl

theorem signRule_at : readGrammar.rules[c.signRule]?
    = some ⟨c.name ++ ":1", .choice (c.signs.map fun sign => [Assembly.word sign])⟩ := by
  cases c <;> rfl

theorem idxOf_signs {sign : String} {i : Nat} (at_ : c.signs[i]? = some sign) : c.signs.idxOf sign = i := by
  have distinct : c.signs.Nodup := by cases c <;> decide
  obtain ⟨lt, rfl⟩ := List.getElem?_eq_some_iff.1 at_
  exact distinct.idxOf_getElem i lt

end Chain

/-- Whether a token with the type of an exact text is one of it, and a variable is among some
names. -/
structure Known (names : List String) (t : Token) : Prop where
  /-- The text is that of the type. -/
  marked : ∀ sign, t.type = Text.quote sign → t.unplaced = mark sign
  /-- A variable is one of the names. -/
  named : t.type = "identifier" → t.lexeme ∈ names

/-- Whether a tree has a counterpart with any tokens that agree with its own. -/
def HasCounterpart (names : List String) (level : Level) (t : Tree) : Prop :=
  ∀ us : List Token, us.map Token.unplaced = t.tokens.map Token.unplaced →
    ∃ t', Corresponds names level t t' ∧ t'.tokens = us

/-- Whether all phrases of a level that are smaller than a tree have counterparts. -/
def BelowHave (names : List String) (level : Level) (t : Tree) : Prop :=
  ∀ u, sizeOf u < sizeOf t → readGrammar.Derives (.rule level.rule) u → u.label = none →
    (∀ token ∈ u.tokens, Known names token) → HasCounterpart names level u

/-- A token that was asked for by its text. -/
theorem exists_mark {text : String} {t : Tree} (h : readGrammar.DerivesTerm (Assembly.word text) t)
    (known : ∀ token ∈ t.tokens, Known names token) :
    ∃ token, t = .ofToken token ∧ token.unplaced = mark text := by
  obtain ⟨derived, label⟩ := h.of_once rfl
  obtain ⟨token, eq, type⟩ := derived.of_terminal
  rw [label] at eq
  subst eq
  refine ⟨token, by rw [Tree.ofToken, type]; rfl, (known token ?_).marked text type⟩
  rw [Tree.tokens_leaf]
  exact List.mem_singleton_self _

/-- The tree of an operator with what comes after it. -/
theorem exists_link (c : Chain) {t : Tree} (derived : readGrammar.Derives (.rule c.linkRule) t)
    (unlabeled : t.label = none) (known : ∀ token ∈ t.tokens, Known names token)
    (below : BelowHave names c.operand t) :
    ∃ k : Link, c.linkTree k = t ∧ k.sign ∈ c.signs ∧ k.token.unplaced = mark k.sign
      ∧ HasCounterpart names c.operand k.operand := by
  obtain ⟨children, eq, derived⟩ := derived.of_only c.linkRule_at
  obtain ⟨sign, others, rfl, isSign, derived⟩ := derived.of_cons
  obtain ⟨operand, others, rfl, isOperand, derived⟩ := derived.of_cons
  obtain rfl := derived.of_nil
  obtain ⟨derivedSign, unlabeledSign⟩ := isSign.of_once rfl
  obtain ⟨derivedOperand, unlabeledOperand⟩ := isOperand.of_once rfl
  obtain ⟨index, terms, children, eqSign, among, derived⟩ := derivedSign.of_choice c.signRule_at
  rw [List.getElem?_map, Option.map_eq_some_iff] at among
  obtain ⟨text, at_, rfl⟩ := among
  obtain ⟨leaf, others, rfl, isLeaf, derived⟩ := derived.of_cons
  obtain rfl := derived.of_nil
  rw [unlabeled] at eq
  rw [unlabeledSign] at eqSign
  subst eq eqSign
  simp only [Tree.tokens_node, List.flatMap_cons, List.flatMap_nil, List.append_nil,
    List.forall_mem_append] at known
  obtain ⟨token, rfl, marked⟩ := exists_mark isLeaf known.1
  refine ⟨⟨text, token, operand⟩, ?_, List.mem_of_getElem? at_, marked, ?_⟩
  · rw [Chain.linkTree, c.idxOf_signs at_]
    rfl
  · refine below operand ?_ derivedOperand unlabeledOperand known.2
    simp
    omega

/-- Links with counterparts are those of pairs of links, for any tokens that agree with theirs. -/
theorem exists_links {c : Chain} {ks : List Link}
    (each : ∀ k ∈ ks, k.token.unplaced = mark k.sign ∧ HasCounterpart names c.operand k.operand)
    {us : List Token}
    (same : us.map Token.unplaced
      = (ks.flatMap fun k => k.token :: k.operand.tokens).map Token.unplaced) :
    ∃ links : List (Link × Link), links.map (·.1) = ks
      ∧ (links.map (·.2)).flatMap (fun k => k.token :: k.operand.tokens) = us
      ∧ (∀ k ∈ links, k.2.sign = k.1.sign ∧ AreMarks k.1.sign k.1.token k.2.token)
      ∧ ∀ k ∈ links, Corresponds names c.operand k.1.operand k.2.operand := by
  induction ks generalizing us with
  | nil =>
    obtain rfl := List.map_eq_nil_iff.1 same
    exact ⟨[], rfl, rfl, List.forall_mem_nil _, List.forall_mem_nil _⟩
  | cons k ks ih =>
    obtain ⟨⟨isMark, counterpart⟩, others⟩ := List.forall_mem_cons.1 each
    rw [List.flatMap_cons, List.cons_append, List.map_cons, List.map_append] at same
    obtain ⟨token, us, rfl, agree, same⟩ := List.map_eq_cons_iff.1 same
    obtain ⟨us, more, rfl, same, same'⟩ := List.map_eq_append_iff.1 same
    obtain ⟨t', corresponds, rfl⟩ := counterpart us same
    obtain ⟨links, rfl, rfl, marks, operands⟩ := ih others same'
    exact ⟨(k, ⟨k.sign, token, t'⟩) :: links, rfl, rfl,
      List.forall_mem_cons.2 ⟨⟨rfl, isMark, agree.trans isMark⟩, marks⟩,
      List.forall_mem_cons.2 ⟨corresponds, operands⟩⟩

/-- Items that are trees of links. -/
theorem exists_linkTrees {c : Chain} {P : Link → Prop} {items : List Tree}
    (each : ∀ x ∈ items, ∃ k, c.linkTree k = x ∧ P k) :
    ∃ ks : List Link, ks.map c.linkTree = items ∧ ∀ k ∈ ks, P k := by
  induction items with
  | nil => exact ⟨[], rfl, List.forall_mem_nil _⟩
  | cons x items ih =>
    obtain ⟨⟨k, rfl, here⟩, others⟩ := List.forall_mem_cons.1 each
    obtain ⟨ks, rfl, later⟩ := ih others
    exact ⟨k :: ks, rfl, List.forall_mem_cons.2 ⟨here, later⟩⟩

/-- A chain is made of what it starts with and of links. -/
theorem Chain.exists_items (c : Chain) {t : Tree}
    (derived : readGrammar.Derives (.rule c.level.rule) t) (unlabeled : t.label = none) :
    ∃ first items,
      t = .node c.name none (some 0) [first, .node (c.name ++ ":0*") none none items]
      ∧ (readGrammar.Derives (.rule c.operand.rule) first ∧ first.label = none)
      ∧ ∀ x ∈ items, readGrammar.Derives (.rule c.linkRule) x ∧ x.label = none := by
  obtain ⟨children, eq, derived⟩ := derived.of_only c.rule_at
  obtain ⟨first, others, rfl, isFirst, derived⟩ := derived.of_cons
  obtain ⟨rest, others, rfl, isRest, derived⟩ := derived.of_cons
  obtain rfl := derived.of_nil
  obtain ⟨items, rfl, -, derivedItems, unlabeledItems⟩ :=
    isRest.of_often fun once => by cases once
  refine ⟨first, items, ?_, isFirst.of_once rfl, fun x mem => ⟨derivedItems x mem, unlabeledItems x mem⟩⟩
  rw [eq, unlabeled]
  cases c <;> rfl

/-- A chain has a counterpart if what is between its operators has. -/
theorem hasCounterpart_chain (c : Chain) {t : Tree}
    (derived : readGrammar.Derives (.rule c.level.rule) t) (unlabeled : t.label = none)
    (known : ∀ token ∈ t.tokens, Known names token) (below : BelowHave names c.operand t) :
    HasCounterpart names c.level t := by
  obtain ⟨first, items, rfl, ⟨isFirst, noLabel⟩, isLink⟩ := c.exists_items derived unlabeled
  simp only [Tree.tokens_node, List.flatMap_cons, List.flatMap_nil, List.append_nil,
    List.forall_mem_append] at known
  have links : ∀ x ∈ items, ∃ k, c.linkTree k = x ∧ k.sign ∈ c.signs ∧ k.token.unplaced = mark k.sign
      ∧ HasCounterpart names c.operand k.operand := by
    intro x mem
    obtain ⟨derived, unlabeled⟩ := isLink x mem
    refine exists_link c derived unlabeled
      (fun token inside => known.2 token (List.mem_flatMap.2 ⟨x, mem, inside⟩)) fun u less => below u ?_
    have := List.sizeOf_lt_of_mem mem
    simp
    omega
  obtain ⟨ks, rfl, each⟩ := exists_linkTrees links
  have head : HasCounterpart names c.operand first := by
    refine below first ?_ isFirst noLabel known.1
    simp
    omega
  intro us same
  rw [← Chain.tree, c.tokens_tree, List.map_append] at same
  obtain ⟨us, more, rfl, same, same'⟩ := List.map_eq_append_iff.1 same
  obtain ⟨first', corresponds, rfl⟩ := head us same
  obtain ⟨pairs, rfl, rfl, marks, operands⟩ := exists_links (fun k mem => (each k mem).2) same'
  refine ⟨c.tree first' (pairs.map (·.2)), ?_, c.tokens_tree ..⟩
  exact .chain corresponds
    (fun k mem => ⟨(each k.1 (List.mem_map_of_mem mem)).1, marks k mem⟩) operands

/-! ### Phrases without operators -/

theorem unary_at : readGrammar.rules[Level.unary.rule]? = some ⟨"unary", .choice
    [[Assembly.word "-", B.one Level.unary.rule], [B.one 4]]⟩ := rfl

theorem primary_at : readGrammar.rules[4]? = some ⟨"primary", .choice
    [[B.one 5], [B.one 6], [Assembly.word "(", B.one Level.sum.rule, Assembly.word ")"]]⟩ := rfl

/-- A token with another name, and one that agrees with it. -/
theorem exists_alias {name type : String} {id : Nat} {t : Tree} {us : List Token}
    (isTerm : readGrammar.DerivesTerm (B.one id) t)
    (at_ : readGrammar.rules[id]? = some ⟨name, .aliasOf type⟩)
    (same : us.map Token.unplaced = t.tokens.map Token.unplaced) :
    ∃ token token', t = .leaf name none (some type) token ∧ us = [token'] ∧ token'.type = type
      ∧ token.unplaced = token'.unplaced := by
  obtain ⟨derived, unlabeled⟩ := isTerm.of_once rfl
  obtain ⟨token, eq, is⟩ := derived.of_alias at_
  rw [unlabeled] at eq
  subst eq
  obtain ⟨token', rest, rfl, agree, empty⟩ := List.map_eq_cons_iff.1 same
  obtain rfl := List.map_eq_nil_iff.1 empty
  have type : token'.unplaced.type = token.unplaced.type := congrArg Token.type agree
  exact ⟨token, token', rfl, rfl, type.trans is, agree.symm⟩

/-- A sum in brackets, and tokens that agree with it. -/
theorem exists_group {children : List Tree} {us : List Token}
    (derived : readGrammar.DerivesAll
      [Assembly.word "(", B.one Level.sum.rule, Assembly.word ")"] children)
    (known : ∀ token ∈ children.flatMap Tree.tokens, Known names token)
    (inside : ∀ u ∈ children, readGrammar.Derives (.rule Level.sum.rule) u → u.label = none →
      (∀ token ∈ u.tokens, Known names token) → HasCounterpart names .sum u)
    (same : us.map Token.unplaced = (children.flatMap Tree.tokens).map Token.unplaced) :
    ∃ t', Corresponds names .unary (plainTree 2 children) t' ∧ t'.tokens = us := by
  obtain ⟨left, others, rfl, isLeft, derived⟩ := derived.of_cons
  obtain ⟨sum, others, rfl, isSum, derived⟩ := derived.of_cons
  obtain ⟨right, others, rfl, isRight, derived⟩ := derived.of_cons
  obtain rfl := derived.of_nil
  obtain ⟨derivedSum, unlabeledSum⟩ := isSum.of_once rfl
  simp only [List.flatMap_cons, List.flatMap_nil, List.append_nil, List.forall_mem_append] at known
  obtain ⟨l, rfl, opens⟩ := exists_mark isLeft known.1
  obtain ⟨r, rfl, closes⟩ := exists_mark isRight known.2.2
  simp only [List.flatMap_cons, List.flatMap_nil, List.append_nil, Tree.ofToken, Tree.tokens_leaf,
    List.singleton_append, List.map_cons, List.map_append, List.map_nil] at same
  obtain ⟨l', us, rfl, agreeLeft, same⟩ := List.map_eq_cons_iff.1 same
  obtain ⟨us, last, rfl, agree, single⟩ := List.map_eq_append_iff.1 same
  obtain ⟨r', empty, rfl, agreeRight, none⟩ := List.map_eq_cons_iff.1 single
  obtain rfl := List.map_eq_nil_iff.1 none
  obtain ⟨sum', corresponds, rfl⟩ :=
    inside sum (by simp) derivedSum unlabeledSum known.2.1 us agree
  exact ⟨_, .group ⟨opens, agreeLeft.trans opens⟩ ⟨closes, agreeRight.trans closes⟩ corresponds,
    by simp [plainTree, Tree.ofToken, tokens_wrapped]⟩

/-- What has no sign before it has a counterpart if the sum in it has. -/
theorem exists_primary {t : Tree} {us : List Token} (derived : readGrammar.Derives (.rule 4) t)
    (unlabeled : t.label = none) (known : ∀ token ∈ t.tokens, Known names token)
    (inside : BelowHave names .sum t) (same : us.map Token.unplaced = t.tokens.map Token.unplaced) :
    ∃ t', Corresponds names .unary (.node "unary" none (some 1) [t]) t' ∧ t'.tokens = us := by
  obtain ⟨index, terms, children, eq, among, derived⟩ := derived.of_choice primary_at
  rw [unlabeled] at eq
  subst eq
  rcases index with _ | _ | _ | index
  · obtain rfl := Option.some.inj among
    obtain ⟨leaf, others, rfl, isLeaf, derived⟩ := derived.of_cons
    obtain rfl := derived.of_nil
    rw [Tree.tokens_node, List.flatMap_singleton] at same
    obtain ⟨token, token', rfl, rfl, is, agree⟩ := exists_alias isLeaf rfl same
    exact ⟨_, .number is agree, by simp [plainTree]⟩
  · obtain rfl := Option.some.inj among
    obtain ⟨leaf, others, rfl, isLeaf, derived⟩ := derived.of_cons
    obtain rfl := derived.of_nil
    rw [Tree.tokens_node, List.flatMap_singleton] at same known
    obtain ⟨token, token', rfl, rfl, is, agree⟩ := exists_alias isLeaf rfl same
    have lexeme : token.lexeme = token'.lexeme := by simpa using congrArg Token.lexeme agree
    have type : token.type = token'.type := by simpa using congrArg Token.type agree
    have named : token.lexeme ∈ names := (known token (by simp)).named (type.trans is)
    exact ⟨_, .variable is agree (lexeme ▸ named), by simp [plainTree]⟩
  · obtain rfl := Option.some.inj among
    rw [Tree.tokens_node] at same known
    refine exists_group derived known (fun u mem => inside u ?_) same
    have := List.sizeOf_lt_of_mem mem
    simp
    omega
  · cases among

/-- What stands between operators has a counterpart if smaller phrases have. -/
theorem hasCounterpart_unary {t : Tree}
    (derived : readGrammar.Derives (.rule Level.unary.rule) t) (unlabeled : t.label = none)
    (known : ∀ token ∈ t.tokens, Known names token) (below : BelowHave names .unary t)
    (inside : BelowHave names .sum t) : HasCounterpart names .unary t := by
  intro us same
  obtain ⟨index, terms, children, eq, among, derived⟩ := derived.of_choice unary_at
  rw [unlabeled] at eq
  subst eq
  rcases index with _ | _ | index
  · obtain rfl := Option.some.inj among
    obtain ⟨sign, others, rfl, isSign, derived⟩ := derived.of_cons
    obtain ⟨operand, others, rfl, isOperand, derived⟩ := derived.of_cons
    obtain rfl := derived.of_nil
    obtain ⟨derivedOperand, unlabeledOperand⟩ := isOperand.of_once rfl
    simp only [Tree.tokens_node, List.flatMap_cons, List.flatMap_nil, List.append_nil,
      List.forall_mem_append] at known
    obtain ⟨token, rfl, isMinus⟩ := exists_mark isSign known.1
    have less : sizeOf operand
        < sizeOf (Tree.node "unary" none (some 0) [.ofToken token, operand]) := by
      simp
      omega
    simp only [Tree.tokens_node, List.flatMap_cons, List.flatMap_nil, List.append_nil,
      Tree.ofToken, Tree.tokens_leaf, List.singleton_append, List.map_cons] at same
    obtain ⟨token', us, rfl, agree, same⟩ := List.map_eq_cons_iff.1 same
    obtain ⟨operand', corresponds, rfl⟩ :=
      below operand less derivedOperand unlabeledOperand known.2 us same
    exact ⟨_, .negate ⟨isMinus, agree.trans isMinus⟩ corresponds, by simp [Tree.ofToken]⟩
  · obtain rfl := Option.some.inj among
    obtain ⟨primary, others, rfl, isPrimary, derived⟩ := derived.of_cons
    obtain rfl := derived.of_nil
    obtain ⟨derivedPrimary, unlabeledPrimary⟩ := isPrimary.of_once rfl
    rw [Tree.tokens_node, List.flatMap_singleton] at same known
    refine exists_primary derivedPrimary unlabeledPrimary known (fun u less => inside u ?_) same
    simp
    omega
  · cases among

/-- **Every tree of an expression** has a counterpart, with any tokens that agree with its own. -/
theorem exists_counterpart (level : Level) {t : Tree}
    (derived : readGrammar.Derives (.rule level.rule) t) (unlabeled : t.label = none)
    (known : ∀ token ∈ t.tokens, Known names token) : HasCounterpart names level t := by
  -- on the size of the tree, for all levels at once: brackets lead from the lowest to the highest
  induction size : sizeOf t using Nat.strong_induction_on generalizing level t with
  | _ n ih =>
    subst size
    have below (level' : Level) : BelowHave names level' t :=
      fun u less derived unlabeled known => ih (sizeOf u) less level' derived unlabeled known rfl
    cases level with
    | unary => exact hasCounterpart_unary derived unlabeled known (below .unary) (below .sum)
    | product => exact hasCounterpart_chain .product derived unlabeled known (below .unary)
    | sum => exact hasCounterpart_chain .sum derived unlabeled known (below .product)

end Expr

end Polyglot
