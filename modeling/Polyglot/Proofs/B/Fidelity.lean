import Polyglot.Proofs.B.Numbers
import Polyglot.Proofs.B.Reading

/-!
# Nothing is lost in reading

What is read from a tree is as fine as the tree: all numbers of the one pass a test just if those of the
other do, and a number without a value is the only thing that leaves a defect behind. A literal may be
read in three ways: as an expression, as the offset of an address, or as a tree that holds nothing but a
literal, which may become an offset further out. In each of them it is the same number up to its sign
(`Reading.Tells`).

What is assigned in a tree is assigned by the statement that is read from it, too (`Statement.Tells`),
and nothing is assigned in the tree of an expression.

All this is so for trees of the right shape. It is said of each shape what its parts have to be.
-/

namespace Polyglot

@[simp] theorem Tree.fine_withLabel {ok : Nat → Prop} {label : Option String} {t : Tree} :
    (t.withLabel label).Fine ok ↔ t.Fine ok := by
  rw [Tree.Fine, Tree.tokens_withLabel, Tree.Fine]

end Polyglot

namespace Polyglot.B

variable {ok : Nat → Prop}

/-! ## Assignments -/

section

variable {name x : String} {label : Option String} {choice : Option Nat} {t : Tree} {ts : List Tree}

/-- What is assigned in an inner tree that is no assignment is assigned below. -/
theorem assignedIn_node (other : name ≠ "assignment") :
    assignedIn (.node name label choice ts) = ts.flatMap assignedIn := by
  rw [assignedIn, if_neg fun is => other (beq_iff_eq.1 is), assignedInList_eq]

theorem assignedIn_eq_nil (other : name ≠ "assignment") (each : ∀ t ∈ ts, assignedIn t = []) :
    assignedIn (.node name label choice ts) = [] := by
  rw [assignedIn_node other]
  exact List.flatMap_eq_nil_iff.2 each

@[simp] theorem assignedIn_withLabel : assignedIn (t.withLabel label) = assignedIn t := by
  cases t with
  | leaf => rfl
  | node =>
    rw [Tree.withLabel, assignedIn, assignedIn]
    rfl

/-- Whether a variable is assigned somewhere in a statement. -/
def Statement.Assigns (b : Statement) (x : String) : Prop :=
  ∃ value, (Statement.assign x value).Inside b

theorem Statement.Assigns.part {inner b : Statement} (h : inner.Assigns x) (mem : inner ∈ b.parts) :
    b.Assigns x := by
  obtain ⟨value, inside⟩ := h
  exact ⟨value, .part inside mem⟩

theorem Statement.Assigns.mem_targets {b : Statement} (h : b.Assigns x) : x ∈ b.targets := by
  obtain ⟨value, inside⟩ := h
  induction inside with
  | refl => exact List.mem_singleton_self _
  | part _ mem ih => exact Statement.mem_targets mem ih

/-- Whether a variable is assigned somewhere in a function. -/
def Function.Assigns (f : Function) (x : String) : Prop := ∃ body, f.body = some body ∧ body.Assigns x

/-- Whether a tree is a token that is no number. -/
structure IsMark (ok : Nat → Prop) (t : Tree) : Prop where
  /-- It is a token. -/
  isLeaf : t.isLeaf
  /-- It is no number that fails the test. -/
  fine : t.Fine ok

theorem IsMark.assigns (h : IsMark ok t) : assignedIn t = [] := by
  cases t with
  | leaf => rfl
  | node => cases h.isLeaf

end

/-! ## Expressions -/

/-- Whether what can be said about a tree is as fine as the tree is, and nothing is assigned there. -/
structure Reading.Tells (ok : Nat → Prop) (r : Reading) (t : Tree) : Prop where
  /-- The expression is as fine. -/
  expression : r.expression.Fine ok ↔ t.Fine ok
  /-- A base with an offset is as fine. -/
  split : ∀ x ∈ r.split, ok x.2.natAbs ∧ x.1.Fine ok ↔ t.Fine ok
  /-- A literal is as fine. -/
  literal : ∀ n ∈ r.literal, ok n.natAbs ↔ t.Fine ok
  /-- Nothing is assigned. -/
  assigns : assignedIn t = []

/-- Whether a tree is the sign of an operator between two expressions. -/
def IsSign (t : Tree) : Prop := (Operator.ofSign? ((t.token?.map (·.lexeme)).getD "")).isSome

/-- What is read from those of some trees that are no leaves is as fine as the trees, if the leaves are no
numbers. -/
theorem forall_mem_inner {α β : Type} {read : Tree → α} {value : Tree × α → β} {p : β → Prop} {ts : List Tree}
    (each : ∀ t ∈ ts, IsMark ok t ∨ t.isLeaf = false ∧ (p (value (t, read t)) ↔ t.Fine ok)) :
    (∀ b ∈ ((ts.map fun t => (t, read t)).filter fun x => !x.1.isLeaf).map value, p b)
      ↔ ∀ t ∈ ts, t.Fine ok := by
  rw [List.forall_mem_map]
  constructor
  · intro fine t mem
    rcases each t mem with mark | ⟨inner, same⟩
    · exact mark.fine
    · exact same.1 (fine (t, read t) (List.mem_filter.2 ⟨List.mem_map_of_mem mem, by simp [inner]⟩))
  · intro fine x kept
    obtain ⟨among, inner⟩ := List.mem_filter.1 kept
    obtain ⟨t, mem, rfl⟩ := List.mem_map.1 among
    rcases each t mem with mark | ⟨-, same⟩
    · simp [mark.isLeaf] at inner
    · exact same.2 (fine t mem)

namespace Reading

theorem partsOf_eq (ts : List Tree) : partsOf ts = ts.map fun t => (t, ofTree t) := by
  induction ts with
  | nil => rw [partsOf, List.map_nil]
  | cons t ts ih => rw [partsOf, ih, List.map_cons]

/-- An operator with what comes after it. -/
abbrev Link := Part × Part

/-- The parts of operators and of what comes after them. -/
def linked (links : List Link) : List Part := links.flatMap fun k => [k.1, k.2]

/-- Whether something is an operator with an expression after it. -/
structure IsLink (ok : Nat → Prop) (k : Link) : Prop where
  /-- First comes a sign. -/
  sign : IsSign k.1.1
  /-- It is no number. -/
  mark : IsMark ok k.1.1
  /-- Then comes an expression. -/
  operand : k.2.2.Tells ok k.2.1

variable {whole t : Tree} {first : Part} {links : List Link}

/-- The trees of links are as fine as the operands that are read. -/
theorem fine_linked (each : ∀ k ∈ links, IsLink ok k) :
    (∀ p ∈ linked links, p.1.Fine ok) ↔ ∀ k ∈ links, k.2.2.expression.Fine ok := by
  rw [linked, List.forall_mem_flatMap]
  refine forall₂_congr fun k mem => ?_
  obtain ⟨-, mark, operand⟩ := each k mem
  simp [mark.fine, operand.expression]

theorem assignedIn_linked (each : ∀ k ∈ links, IsLink ok k) : ∀ p ∈ linked links, assignedIn p.1 = [] := by
  rw [linked, List.forall_mem_flatMap]
  intro k mem
  obtain ⟨-, mark, operand⟩ := each k mem
  simp [mark.assigns, operand.assigns]

theorem fine_chainFrom (each : ∀ k ∈ links, IsSign k.1.1) {left : Expression} :
    (chainFrom whole left (linked links)).Fine ok
      ↔ left.Fine ok ∧ ∀ k ∈ links, k.2.2.expression.Fine ok := by
  induction links generalizing left with
  | nil => simp [linked, chainFrom]
  | cons k links ih =>
    obtain ⟨isSign, others⟩ := List.forall_mem_cons.1 each
    obtain ⟨op, sign⟩ := Option.isSome_iff_exists.1 isSign
    show (chainFrom whole (binaryOf k.1.1 left k.2.2.expression) (linked links)).Fine ok ↔ _
    rw [ih others, binaryOf, sign, Expression.fine_binary, List.forall_mem_cons, and_assoc]

/-- A chain of operators is as fine as its trees. -/
theorem fine_chain (each : ∀ k ∈ links, IsLink ok k) (start : first.2.Tells ok first.1) :
    (chain whole (first :: linked links)).Fine ok ↔ ∀ p ∈ first :: linked links, p.1.Fine ok := by
  rw [List.forall_mem_cons, fine_linked each, ← start.expression]
  exact fine_chainFrom fun k mem => (each k mem).sign

/-- The base of a sum is what comes before the last operator, and the offset is what comes after it. -/
theorem fine_splitSum (each : ∀ k ∈ links, IsLink ok k) (start : first.2.Tells ok first.1) :
    ∀ x ∈ splitSum whole (first :: linked links),
      ok x.2.natAbs ∧ x.1.Fine ok ↔ ∀ p ∈ first :: linked links, p.1.Fine ok := by
  rcases List.eq_nil_or_concat links with rfl | ⟨before, last, rfl⟩
  · exact fun x mem => by cases mem
  · have parts : first :: linked (before.concat last) = (first :: linked before) ++ [last.1, last.2] := by
      simp [linked]
    have length : ((first :: linked before) ++ [last.1, last.2]).length - 2
        = (first :: linked before).length := by simp
    have others : ∀ k ∈ before, IsLink ok k := fun k mem => each k (by simp [mem])
    obtain ⟨-, mark, operand⟩ := each last (by simp)
    intro x mem
    rw [parts, splitSum, length, List.take_left, List.drop_left] at mem
    obtain ⟨value, known, mem⟩ := Option.bind_eq_some_iff.1 mem
    dsimp only at mem
    have base (t : Tree) : (chain t (first :: linked before)).Fine ok
        ↔ ∀ p ∈ first :: linked before, p.1.Fine ok := fine_chain others start
    have offset := operand.literal value known
    have all : (∀ p ∈ first :: linked (before.concat last), p.1.Fine ok)
        ↔ ok value.natAbs ∧ ∀ p ∈ first :: linked before, p.1.Fine ok := by
      rw [parts, List.forall_mem_append, offset, and_comm]
      simp [mark.fine]
    rw [all]
    split at mem
    · obtain rfl := Option.some.inj mem
      rw [base]
    · split at mem
      · obtain rfl := Option.some.inj mem
        rw [base, Int.natAbs_neg]
      · cases mem

/-- The names of the trees that are chains of operators. -/
def chains : List String := ["expression", "conjunction", "equality", "comparison", "sum", "product"]

theorem expressionOf_chain (isChain : t.name ∈ chains) (parts : List Part) :
    expressionOf t parts = chain t parts := by
  simp only [chains, List.mem_cons, List.not_mem_nil, or_false] at isChain
  rcases isChain with is | is | is | is | is | is <;> simp only [expressionOf, is]

/-- What can be said about a chain of operators. -/
theorem tells_ofParts_chain (isChain : t.name ∈ chains) (each : ∀ k ∈ links, IsLink ok k)
    (start : first.2.Tells ok first.1) (below : t.Fine ok ↔ ∀ p ∈ first :: linked links, p.1.Fine ok)
    (assigns : (∀ p ∈ first :: linked links, assignedIn p.1 = []) → assignedIn t = []) :
    (ofParts t (first :: linked links)).Tells ok t where
  expression := by
    rw [below]
    show (expressionOf t _).Fine ok ↔ _
    rw [expressionOf_chain isChain]
    exact fine_chain each start
  split := by
    rw [below]
    show ∀ x ∈ splitOf t _, _
    unfold splitOf
    split
    · exact fine_splitSum each start
    · cases links with
      | nil => simpa [linked] using start.split
      | cons => exact fun x mem => by cases mem
  literal := by
    rw [below]
    cases links with
    | nil =>
      show ∀ n ∈ first.2.literal, _
      simpa [linked] using start.literal
    | cons => exact fun n mem => by cases mem
  assigns := assigns (List.forall_mem_cons.2 ⟨start.assigns, assignedIn_linked each⟩)

/-- What can be said about a tree that is no chain. -/
theorem tells_of_expression {r : Reading} (fine : r.expression.Fine ok ↔ t.Fine ok)
    (assigns : assignedIn t = []) (split : r.split = none) (literal : r.literal = none) : r.Tells ok t where
  expression := fine
  split _ found := by cases split.symm.trans found
  literal _ found := by cases literal.symm.trans found
  assigns := assigns

/-- The address of a word in memory. -/
theorem fine_address {r : Reading} (zero : ok 0) (h : r.Tells ok t) :
    ok r.address.2.natAbs ∧ r.address.1.Fine ok ↔ t.Fine ok := by
  rw [address]
  cases split : r.split with
  | none => exact (and_iff_right zero).trans h.expression
  | some x => exact h.split x split

/-- What has a sign before it. -/
theorem fine_sign {sign operand : Part} (isSign : isSign sign.1 "!" ∨ isSign sign.1 "-") :
    (unary whole [sign, operand]).Fine ok ↔ operand.2.expression.Fine ok := by
  simp only [unary]
  split
  · exact Expression.fine_negate
  · rename_i noMinus
    rw [if_pos (isSign.resolve_right noMinus)]
    exact Expression.fine_isZero

/-- What is in brackets. -/
theorem unary_brackets {left inner right : Part} (isLeft : isSign left.1 "(")
    (isRight : isSign right.1 ")") : unary whole [left, inner, right] = inner.2.expression := by
  simp only [unary, isLeft, isRight, Bool.and_self, ↓reduceIte]

/-- Whether the expressions below a tree are as fine as the tree, and nothing is assigned there. -/
structure Lists (ok : Nat → Prop) (r : Reading) (t : Tree) : Prop where
  /-- They are as fine. -/
  items : (∀ e ∈ r.items, e.Fine ok) ↔ t.Fine ok
  /-- Nothing is assigned. -/
  assigns : assignedIn t = []

/-- The expressions below a tree, next to tokens that are no numbers. -/
theorem lists_ofTree {name : String} {label : Option String} {choice : Option Nat} {ts : List Tree}
    (other : name ≠ "assignment")
    (each : ∀ t ∈ ts, IsMark ok t ∨ t.isLeaf = false ∧ (ofTree t).Tells ok t) :
    (ofTree (.node name label choice ts)).Lists ok (.node name label choice ts) where
  items := by
    rw [Tree.fine_node, ofTree, partsOf_eq, ofParts]
    exact forall_mem_inner fun t mem => (each t mem).imp_right (And.imp_right Tells.expression)
  assigns := assignedIn_eq_nil other fun t mem =>
    (each t mem).elim IsMark.assigns fun tells => tells.2.assigns

/-- What can be said about a call, the arguments of which come after two tokens that are no numbers. -/
theorem tells_call {label : Option String} {choice : Option Nat} {callee left right : Tree}
    {us : List Tree} (named : callee.label = some "name")
    (tokens : ∀ t ∈ [callee, left, right], t.name ≠ "arguments" ∧ IsMark ok t)
    (arguments : us = [] ∨ ∃ u, us = [u] ∧ u.name = "arguments" ∧ (ofTree u).Lists ok u) :
    (ofTree (.node "call" label choice (callee :: left :: (us ++ [right])))).Tells ok
      (.node "call" label choice (callee :: left :: (us ++ [right]))) := by
  have found : (Tree.node "call" label choice (callee :: left :: (us ++ [right]))).labeled? "name"
      = some callee := by
    rw [Tree.labeled?, Tree.children, List.find?_cons_of_pos (by rw [named]; rfl)]
  obtain ⟨⟨other₁, mark₁⟩, ⟨other₂, mark₂⟩, other₃, mark₃⟩ :
      (callee.name ≠ "arguments" ∧ IsMark ok callee) ∧ (left.name ≠ "arguments" ∧ IsMark ok left)
        ∧ right.name ≠ "arguments" ∧ IsMark ok right := by simpa using tokens
  have marks := And.intro mark₁.fine (And.intro mark₂.fine mark₃.fine)
  rw [ofTree]
  refine tells_of_expression ?_ (assignedIn_eq_nil (by decide) ?_) rfl ?_
  · show (call _ _).Fine ok ↔ _
    rw [call, found]
    dsimp only
    rw [Expression.fine_call, Tree.fine_node]
    rcases arguments with rfl | ⟨u, rfl, is, lists⟩
    · simp [partsOf_eq, other₁, other₂, other₃, marks]
    · simpa [partsOf_eq, other₁, other₂, marks, is] using lists.items
  · rcases arguments with rfl | ⟨u, rfl, -, lists⟩
    · simp [mark₁.assigns, mark₂.assigns, mark₃.assigns]
    · simp [mark₁.assigns, mark₂.assigns, mark₃.assigns, lists.assigns]
  · rcases arguments with rfl | ⟨u, rfl, -⟩ <;> rfl

/-- What can be said about a word in memory. -/
theorem tells_load {label : Option String} {choice : Option Nat} {left place right : Tree} (zero : ok 0)
    (unlabeled : left.label = none) (labeled : place.label = some "address") (mark : IsMark ok left)
    (mark' : IsMark ok right) (tells : (ofTree place).Tells ok place) :
    (ofTree (.node "load" label choice [left, place, right])).Tells ok
      (.node "load" label choice [left, place, right]) := by
  rw [ofTree]
  refine tells_of_expression ?_ (assignedIn_eq_nil (by decide) ?_) rfl rfl
  · show (load _ _).Fine ok ↔ _
    rw [load, partsOf_eq, List.map_cons, List.map_cons,
      List.find?_cons_of_neg (by rw [unlabeled]; decide),
      List.find?_cons_of_pos (by rw [labeled]; rfl)]
    dsimp only
    rw [Expression.fine_load, fine_address zero tells, Tree.fine_node]
    simp [mark.fine, mark'.fine]
  · simp [mark.assigns, mark'.assigns, tells.assigns]

/-- Of the tree that a chain is below, only the place matters. -/
theorem chain_of_span {whole whole' : Tree} (same : whole.span = whole'.span) (parts : List Part) :
    chain whole parts = chain whole' parts := by
  have later (left : Expression) (parts : List Part) :
      chainFrom whole left parts = chainFrom whole' left parts := by
    fun_induction chainFrom whole left parts with
    | case1 => rfl
    | case2 left sign => rw [chainFrom, same]
    | case3 left sign operand rest ih => rw [ih, ← chainFrom]
  cases parts with
  | nil => rw [chain, chain, same]
  | cons first rest => exact later _ _

/-- A label makes no difference to what can be said about a tree. -/
theorem ofTree_withLabel (label : Option String) (t : Tree) : ofTree (t.withLabel label) = ofTree t := by
  cases t with
  | leaf => rfl
  | node name label' choice children =>
    have same (name : String) (children : List Tree) : (Tree.node name label choice children).span
        = (Tree.node name label' choice children).span := rfl
    have base (ts : List Tree) : chain ((Tree.node name label choice children).withChildren ts)
        = chain ((Tree.node name label' choice children).withChildren ts) :=
      funext (chain_of_span (same name ts))
    rw [Tree.withLabel, ofTree, ofTree, ofParts, ofParts, mk.injEq]
    refine ⟨?_, ?_, rfl, rfl⟩
    · unfold expressionOf
      simp only [Tree.name]
      split
      case h_1 | h_2 | h_3 | h_4 | h_5 | h_6 => exact chain_of_span (same _ _) _
      all_goals rfl
    · simp only [splitOf, splitSum, base, Tree.name]
      rfl

end Reading

/-- A label makes no difference to the statement of a tree. -/
theorem Statement.ofTree_withLabel (label : Option String) (t : Tree) :
    ofTree (t.withLabel label) = ofTree t := by
  cases t with
  | leaf => rfl
  | node =>
    rw [Tree.withLabel, ofTree, ofTree]
    rfl

/-! ## Statements -/

/-- Whether a statement is as fine as the tree that it is read from, and assigns what is assigned there. -/
structure Statement.Tells (ok : Nat → Prop) (b : Statement) (t : Tree) : Prop where
  /-- It is as fine. -/
  fine : b.Fine ok ↔ t.Fine ok
  /-- It assigns the same. -/
  assigns : ∀ x ∈ assignedIn t, b.Assigns x

/-- Whether a function is as fine as the tree that it is read from, and its body assigns what is assigned
there. -/
structure Function.Tells (ok : Nat → Prop) (f : Function) (t : Tree) : Prop where
  /-- It is as fine. -/
  fine : f.Fine ok ↔ t.Fine ok
  /-- Its body assigns the same. -/
  assigns : ∀ x ∈ f.assigned, f.Assigns x

namespace Statement

variable {b : Statement} {t : Tree} {name : String} {label : Option String} {choice : Option Nat}
  {ts : List Tree}

theorem Tells.withLabel (h : b.Tells ok t) (label : Option String) : b.Tells ok (t.withLabel label) where
  fine := h.fine.trans Tree.fine_withLabel.symm
  assigns := by
    rw [assignedIn_withLabel]
    exact h.assigns

/-- What can be said about a statement that is no assignment. -/
theorem tells_of_node (other : name ≠ "assignment") (is : ofTree (.node name label choice ts) = b)
    (fine : b.Fine ok ↔ ∀ t ∈ ts, t.Fine ok)
    (each : ∀ t ∈ ts, assignedIn t = [] ∨ ofTree t ∈ b.parts ∧ (ofTree t).Tells ok t) :
    (ofTree (.node name label choice ts)).Tells ok (.node name label choice ts) where
  fine := by rw [is, fine, Tree.fine_node]
  assigns x mem := by
    rw [assignedIn_node other] at mem
    obtain ⟨t, below, mem⟩ := List.mem_flatMap.1 mem
    rcases each t below with none | ⟨part, tells⟩
    · rw [none] at mem
      cases mem
    · rw [is]
      exact (tells.assigns x mem).part part

/-- What can be said about an assignment. -/
theorem tells_assignment {target value : Tree}
    (found : (Tree.node "assignment" label choice ts).labeled? "target" = some target)
    (found' : (Tree.node "assignment" label choice ts).labeled? "value" = some value)
    (fine : (Reading.ofTree value).expression.Fine ok ↔ ∀ t ∈ ts, t.Fine ok) :
    (ofTree (.node "assignment" label choice ts)).Tells ok (.node "assignment" label choice ts) := by
  have is : ofTree (.node "assignment" label choice ts)
      = .assign target.text (Reading.ofTree value).expression := by
    rw [ofTree]
    show assignment _ = _
    rw [assignment, found, found']
  constructor
  · rw [is, fine_assign, fine, Tree.fine_node]
  · intro x mem
    rw [assignedIn, if_pos (beq_self_eq_true _), found] at mem
    obtain rfl := List.mem_singleton.1 mem
    rw [is]
    exact ⟨_, .refl⟩

theorem partsOf_eq_map (ts : List Tree) : partsOf ts = ts.map fun t => (t, ofTree t) := by
  induction ts with
  | nil => rw [partsOf, List.map_nil]
  | cons t ts ih => rw [partsOf, ih, List.map_cons]

/-- The statement with a label is that of the tree with the label. -/
theorem labeled?_partsOf (t : Tree) (label : String) :
    labeled? (partsOf t.children) label = (t.labeled? label).map ofTree := by
  rw [labeled?, partsOf_eq_map, List.find?_map, Option.map_map]
  rfl

/-- What can be said about a block. -/
theorem tells_block (each : ∀ t ∈ ts, IsMark ok t ∨ t.isLeaf = false ∧ (ofTree t).Tells ok t) :
    (ofTree (.node "block" label choice ts)).Tells ok (.node "block" label choice ts) := by
  have is : ofTree (.node "block" label choice ts)
      = .block (((ts.map fun t => (t, ofTree t)).filter fun p => !p.1.isLeaf).map (·.2)) := by
    rw [ofTree, partsOf_eq_map]
    rfl
  refine tells_of_node (by decide) is ?_ fun t mem => ?_
  · rw [fine_block]
    exact forall_mem_inner fun t mem => (each t mem).imp_right (And.imp_right Tells.fine)
  · refine (each t mem).imp IsMark.assigns fun below => ⟨?_, below.2⟩
    refine List.mem_map.2 ⟨(t, ofTree t), List.mem_filter.2 ⟨List.mem_map_of_mem mem, ?_⟩, rfl⟩
    simp [below.1]

/-- A statement with a condition. -/
theorem conditional_eq {t c b : Tree} {label : String} {make : Expression → Statement → Statement}
    (condition : t.labeled? "condition" = some c) (part : t.labeled? label = some b) :
    conditional t label (partsOf t.children) make
      = make (Reading.ofTree c).expression (ofTree b) := by
  rw [conditional, condition]
  dsimp only
  rw [labeled?_partsOf, part]
  rfl

section

variable {c b d : Tree} (condition : (Tree.node "if" label choice ts).labeled? "condition" = some c)
  (positive : (Tree.node "if" label choice ts).labeled? "then" = some b)

include condition positive

theorem ofTree_if : ofTree (.node "if" label choice ts)
    = match (Tree.node "if" label choice ts).labeled? "otherwise" with
      | some d => .ifElse (Reading.ofTree c).expression (ofTree b) (ofTree d)
      | none => .ifThen (Reading.ofTree c).expression (ofTree b) := by
  rw [ofTree]
  show ofParts _ (partsOf (Tree.node "if" label choice ts).children) = _
  unfold ofParts
  refine (conditional_eq condition positive).trans ?_
  rw [labeled?_partsOf]
  cases (Tree.node "if" label choice ts).labeled? "otherwise" <;> rfl

/-- A decision about one statement. -/
theorem ifThen_eq (none : (Tree.node "if" label choice ts).labeled? "otherwise" = none) :
    ofTree (.node "if" label choice ts) = .ifThen (Reading.ofTree c).expression (ofTree b) := by
  rw [ofTree_if condition positive, none]

/-- A decision between two statements. -/
theorem ifElse_eq (negative : (Tree.node "if" label choice ts).labeled? "otherwise" = some d) :
    ofTree (.node "if" label choice ts)
      = .ifElse (Reading.ofTree c).expression (ofTree b) (ofTree d) := by
  rw [ofTree_if condition positive, negative]

end

end Statement

/-- What can be said about a function, of which only the body has numbers. -/
theorem Function.tells_ofTree {t body : Tree} (found : t.labeled? "body" = some body)
    (tells : (Statement.ofTree body).Tells ok body) (rest : body.Fine ok ↔ t.Fine ok) :
    (ofTree t).Tells ok t where
  fine := by simp [Function.Fine, ofTree, found, tells.fine, rest]
  assigns x mem := by
    have assigned : (ofTree t).assigned = assignedIn body := by
      show ((t.labeled? "body").map assignedIn).getD [] = _
      rw [found]
      rfl
    exact ⟨_, congrArg (Option.map Statement.ofTree) found, tells.assigns x (assigned ▸ mem)⟩

end Polyglot.B
