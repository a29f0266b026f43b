import Polyglot.Proofs.B.Intact

/-!
# Numbers in programs

What can be wrong with the numbers of a program can be said of its tokens, and of the expressions and
statements that are read from them. For tokens it is said of those that are numbers (`Token.Fine`);
for expressions and statements, of literals and of the offsets of addresses, which are literals that
were split off (`Expression.Fine`, `Statement.Fine`). A number that has no value leaves a defect behind,
so it goes without saying that there is none.

The test that the numbers should pass is left open. With a test that they all pass, nothing is said
but that there is no defect (`Expression.Fine.intact`, `Statement.Fine.intact`).
-/

namespace Polyglot

/-- Whether a token is no number, or one that passes a test. -/
def Token.Fine (ok : Nat → Prop) (t : Token) : Prop :=
  t.type = "decimal_integer" → ∃ n, t.int? = some n ∧ ok n.natAbs

/-- Whether all numbers of a tree pass a test. -/
def Tree.Fine (ok : Nat → Prop) (t : Tree) : Prop := ∀ token ∈ t.tokens, token.Fine ok

namespace Tree

variable {ok : Nat → Prop} {name : String} {label terminal : Option String} {choice : Option Nat}

@[simp] theorem fine_leaf {token : Token} : (leaf name label terminal token).Fine ok ↔ token.Fine ok := by
  rw [Fine, tokens_leaf, List.forall_mem_singleton]

@[simp] theorem fine_node {children : List Tree} :
    (node name label choice children).Fine ok ↔ ∀ t ∈ children, t.Fine ok := by
  rw [Fine, tokens_node]
  exact ⟨fun h t mem token inside => h token (List.mem_flatMap.2 ⟨t, mem, inside⟩), fun h token mem => by
    obtain ⟨t, below, inside⟩ := List.mem_flatMap.1 mem
    exact h t below token inside⟩

end Tree

namespace B

variable {ok : Nat → Prop}

theorem forall_mem_pair {α : Type} {P : α → Prop} {x y : α} : (∀ z ∈ [x, y], P z) ↔ P x ∧ P y :=
  List.forall_mem_cons.trans (and_congr_right' List.forall_mem_singleton)

/-! ## Expressions -/

namespace Expression

variable {e o left right : Expression} {es : List Expression} {n : Int} {name : String} {span : Source.Span}

/-- Whether an expression itself is no defect, and has no number that fails a test. -/
def Measured (ok : Nat → Prop) : Expression → Prop
  | .integer value _ => ok value.natAbs
  | .load _ offset _ => ok offset.natAbs
  | .broken .. => False
  | .text _ | .variable .. | .negate _ | .isZero _ | .binary .. | .call .. => True

/-- Whether nothing in an expression is a defect, and all numbers pass a test. -/
def Fine (ok : Nat → Prop) (e : Expression) : Prop := ∀ inner : Expression, inner.Inside e → inner.Measured ok

theorem fine_iff : e.Fine ok ↔ e.Measured ok ∧ ∀ o ∈ e.operands, o.Fine ok := by
  constructor
  · exact fun h => ⟨h e .refl, fun o mem inner inside => h inner (.operand inside mem)⟩
  · rintro ⟨here, below⟩ inner inside
    cases inside with
    | refl => exact here
    | operand inside mem => exact below _ mem inner inside

theorem Measured.fine_iff (measured : e.Measured ok) : e.Fine ok ↔ ∀ o ∈ e.operands, o.Fine ok :=
  Expression.fine_iff.trans (and_iff_right measured)

@[simp] theorem fine_integer : (integer n span).Fine ok ↔ ok n.natAbs :=
  fine_iff.trans (and_iff_left (List.forall_mem_nil _))

@[simp] theorem fine_text {text : String} : (Expression.text text).Fine ok :=
  fine_iff.2 ⟨trivial, List.forall_mem_nil _⟩

@[simp] theorem fine_variable : (Expression.variable name span).Fine ok :=
  fine_iff.2 ⟨trivial, List.forall_mem_nil _⟩

@[simp] theorem fine_negate : (negate e).Fine ok ↔ e.Fine ok :=
  (Measured.fine_iff (by trivial)).trans List.forall_mem_singleton

@[simp] theorem fine_isZero : (isZero e).Fine ok ↔ e.Fine ok :=
  (Measured.fine_iff (by trivial)).trans List.forall_mem_singleton

@[simp] theorem fine_binary {op : Operator} :
    (binary op left right span).Fine ok ↔ left.Fine ok ∧ right.Fine ok :=
  (Measured.fine_iff (by trivial)).trans forall_mem_pair

@[simp] theorem fine_call : (call name es span).Fine ok ↔ ∀ e ∈ es, e.Fine ok :=
  Measured.fine_iff (by trivial)

@[simp] theorem fine_load : (load e n span).Fine ok ↔ ok n.natAbs ∧ e.Fine ok :=
  fine_iff.trans (and_congr_right' List.forall_mem_singleton)

@[simp] theorem not_fine_broken {defect : Defect} : ¬ (broken es defect span).Fine ok := fun h => h _ .refl

theorem Fine.intact (fine : e.Fine ok) : e.intact := by
  induction e using Expression.induct with
  | step e ih =>
    obtain ⟨here, below⟩ := fine_iff.1 fine
    have each : ∀ o ∈ e.operands, o.intact := fun o mem => ih o mem (below o mem)
    cases e with
    | integer | text | «variable» => rfl
    | negate operand | isZero operand | load operand => exact each operand List.mem_cons_self
    | binary op left right span =>
      exact Bool.and_eq_true_iff.2 ⟨each left List.mem_cons_self, each right (by simp [operands])⟩
    | call callee arguments span => exact intactAll_iff.2 each
    | broken => exact here.elim

end Expression

/-! ## Statements -/

namespace Statement

variable {b positive negative : Statement} {bs : List Statement} {e base : Expression}

/-- Whether a statement itself is no defect, and has no number that fails a test. -/
def Measured (ok : Nat → Prop) : Statement → Prop
  | .store _ offset _ _ => ok offset.natAbs
  | .broken .. => False
  | .block _ | .whileLoop .. | .ifThen .. | .ifElse .. | .ret _ | .assign .. | .call _ | .skip => True

/-- Whether nothing in a statement is a defect, and all numbers pass a test. -/
def Fine (ok : Nat → Prop) (b : Statement) : Prop :=
  ∀ inner : Statement, inner.Inside b → inner.Measured ok ∧ ∀ o ∈ inner.operands, o.Fine ok

theorem fine_iff :
    b.Fine ok ↔ (b.Measured ok ∧ ∀ o ∈ b.operands, o.Fine ok) ∧ ∀ part ∈ b.parts, part.Fine ok := by
  constructor
  · exact fun h => ⟨h b .refl, fun part mem inner inside => h inner (.part inside mem)⟩
  · rintro ⟨here, below⟩ inner inside
    cases inside with
    | refl => exact here
    | part inside mem => exact below _ mem inner inside

theorem Measured.fine_iff (measured : b.Measured ok) :
    b.Fine ok ↔ (∀ o ∈ b.operands, o.Fine ok) ∧ ∀ part ∈ b.parts, part.Fine ok :=
  Statement.fine_iff.trans (and_congr_left' (and_iff_right measured))

@[simp] theorem fine_block : (block bs).Fine ok ↔ ∀ b ∈ bs, b.Fine ok :=
  (Measured.fine_iff (by trivial)).trans (and_iff_right (List.forall_mem_nil _))

@[simp] theorem fine_whileLoop : (whileLoop e b).Fine ok ↔ e.Fine ok ∧ b.Fine ok :=
  (Measured.fine_iff (by trivial)).trans (and_congr List.forall_mem_singleton List.forall_mem_singleton)

@[simp] theorem fine_ifThen : (ifThen e b).Fine ok ↔ e.Fine ok ∧ b.Fine ok :=
  (Measured.fine_iff (by trivial)).trans (and_congr List.forall_mem_singleton List.forall_mem_singleton)

@[simp] theorem fine_ifElse :
    (ifElse e positive negative).Fine ok ↔ e.Fine ok ∧ positive.Fine ok ∧ negative.Fine ok :=
  (Measured.fine_iff (by trivial)).trans (and_congr List.forall_mem_singleton forall_mem_pair)

@[simp] theorem fine_ret {value : Option Expression} : (ret value).Fine ok ↔ ∀ e ∈ value, e.Fine ok :=
  (Measured.fine_iff (by trivial)).trans <| (and_iff_left (List.forall_mem_nil _)).trans <|
    forall_congr' fun _ => imp_congr_left Option.mem_toList

@[simp] theorem fine_assign {target : String} : (assign target e).Fine ok ↔ e.Fine ok :=
  (Measured.fine_iff (by trivial)).trans <|
    (and_iff_left (List.forall_mem_nil _)).trans List.forall_mem_singleton

@[simp] theorem fine_store {offset : Int} {span : Source.Span} :
    (store base offset span e).Fine ok ↔ ok offset.natAbs ∧ base.Fine ok ∧ e.Fine ok :=
  fine_iff.trans <| (and_iff_left (List.forall_mem_nil _)).trans (and_congr_right' forall_mem_pair)

@[simp] theorem fine_call : (Statement.call e).Fine ok ↔ e.Fine ok :=
  (Measured.fine_iff (by trivial)).trans <|
    (and_iff_left (List.forall_mem_nil _)).trans List.forall_mem_singleton

@[simp] theorem fine_skip : skip.Fine ok :=
  fine_iff.2 ⟨⟨trivial, List.forall_mem_nil _⟩, List.forall_mem_nil _⟩

theorem Fine.intact (fine : b.Fine ok) : b.intact := by
  induction b using Statement.induct with
  | step b ih =>
    obtain ⟨⟨here, values⟩, below⟩ := fine_iff.1 fine
    have operand : ∀ o ∈ b.operands, o.intact := fun o mem => (values o mem).intact
    have part : ∀ inner ∈ b.parts, inner.intact := fun inner mem => ih inner mem (below inner mem)
    cases b with
    | block body => exact intactBlock_iff.2 part
    | whileLoop e body | ifThen e body =>
      exact Bool.and_eq_true_iff.2 ⟨operand e List.mem_cons_self, part body List.mem_cons_self⟩
    | ifElse e positive negative =>
      rw [Statement.intact, operand e List.mem_cons_self, part positive List.mem_cons_self,
        part negative (by simp [parts])]
      rfl
    | ret value =>
      cases value with
      | none => rfl
      | some e => exact operand e List.mem_cons_self
    | assign target e | call e => exact operand e List.mem_cons_self
    | store base offset span e =>
      exact Bool.and_eq_true_iff.2 ⟨operand base List.mem_cons_self, operand e (by simp [operands])⟩
    | skip => rfl
    | broken => exact here.elim

end Statement

/-- Whether a function has a body without defects, the numbers of which pass a test. -/
def Function.Fine (ok : Nat → Prop) (f : Function) : Prop := ∃ body, f.body = some body ∧ body.Fine ok

end B

end Polyglot
