import Polyglot.Proofs.B.Blaming

/-!
# Intact programs

A program is *intact* (`Program.Intact`) if no part of it is broken: every function has a body, every
text has a value, and there is no defect in any statement or expression. Whatever else may be wrong
with an intact program, the compiler does not find a defect in it (`Program.compile_ne_malformed`):
a defect is an error of what is broken, and what is inside something intact is not
(`Expression.Inside.intact`, `Statement.Inside.intact`).
-/

namespace Polyglot.B

open Polyglot.Source

/-! ## Programs without defects -/

mutual

/-- Whether no part of an expression is broken. -/
def Expression.intact : Expression → Bool
  | .integer .. | .text _ | .variable .. => true
  | .negate operand | .isZero operand => operand.intact
  | .binary _ left right _ => left.intact && right.intact
  | .call _ arguments _ => intactAll arguments
  | .load base _ _ => base.intact
  | .broken .. => false

/-- Whether no part of any expression is broken. -/
def intactAll : List Expression → Bool
  | [] => true
  | e :: es => e.intact && intactAll es

end

mutual

/-- Whether no part of a statement is broken. -/
def Statement.intact : Statement → Bool
  | .block body => intactBlock body
  | .whileLoop condition body => condition.intact && body.intact
  | .ifThen condition positive => condition.intact && positive.intact
  | .ifElse condition positive negative => condition.intact && positive.intact && negative.intact
  | .ret none | .skip => true
  | .ret (some e) | .assign _ e | .call e => e.intact
  | .store base _ _ e => base.intact && e.intact
  | .broken .. => false

/-- Whether no part of any statement is broken. -/
def intactBlock : List Statement → Bool
  | [] => true
  | b :: bs => b.intact && intactBlock bs

end

theorem intactAll_iff {es : List Expression} : intactAll es ↔ ∀ e ∈ es, e.intact := by
  induction es with
  | nil => simp [intactAll]
  | cons e es ih => simp [intactAll, ih]

theorem intactBlock_iff {bs : List Statement} : intactBlock bs ↔ ∀ b ∈ bs, b.intact := by
  induction bs with
  | nil => simp [intactBlock]
  | cons b bs ih => simp [intactBlock, ih]

/-- Whether a program has a body without defects for every function and a value for every text. -/
structure Program.Intact (p : Program) : Prop where
  /-- The texts have values. -/
  texts : ∀ x ∈ p.texts, ∃ text, x = .ok text
  /-- The functions have bodies. -/
  bodies : ∀ f ∈ p.functions, ∃ body, f.body = some body ∧ body.intact

/-! ## What is inside -/

namespace Expression

variable {e inner : Expression} {err : CompileError}

theorem intact_operands (intact : e.intact) : ∀ o ∈ e.operands, o.intact := by
  cases e with
  | negate operand | isZero operand => exact List.forall_mem_singleton.2 intact
  | binary op left right span =>
    rw [Expression.intact, Bool.and_eq_true] at intact
    exact List.forall_mem_cons.2 ⟨intact.1, List.forall_mem_singleton.2 intact.2⟩
  | call callee arguments span => exact intactAll_iff.1 intact
  | load base offset span => exact List.forall_mem_singleton.2 intact
  | broken => cases intact
  | integer | text | «variable» => exact List.forall_mem_nil _

theorem Inside.intact (inside : inner.Inside e) (intact : e.intact) : inner.intact := by
  induction inside with
  | refl => exact intact
  | operand _ mem ih => exact ih (intact_operands intact _ mem)

/-- Only what is broken has a defect. -/
theorem Raises.ne_malformed (raises : e.Raises err) (intact : e.intact) (defect : Defect) (span : Span) :
    err ≠ .malformed defect span := by
  rintro rfl
  cases raises
  cases intact

end Expression

namespace Statement

variable {b inner : Statement} {err : CompileError}

theorem intact_operands (intact : b.intact) : ∀ o ∈ b.operands, o.intact := by
  cases b with
  | whileLoop condition body | ifThen condition positive =>
    rw [Statement.intact, Bool.and_eq_true] at intact
    exact List.forall_mem_singleton.2 intact.1
  | ifElse condition positive negative =>
    rw [Statement.intact, Bool.and_eq_true, Bool.and_eq_true] at intact
    exact List.forall_mem_singleton.2 intact.1.1
  | ret value =>
    cases value with
    | none => exact List.forall_mem_nil _
    | some e => exact List.forall_mem_singleton.2 intact
  | assign target e | call e => exact List.forall_mem_singleton.2 intact
  | store base offset span e =>
    rw [Statement.intact, Bool.and_eq_true] at intact
    exact List.forall_mem_cons.2 ⟨intact.1, List.forall_mem_singleton.2 intact.2⟩
  | broken => cases intact
  | block | skip => exact List.forall_mem_nil _

theorem intact_parts (intact : b.intact) : ∀ part ∈ b.parts, part.intact := by
  cases b with
  | block body => exact intactBlock_iff.1 intact
  | whileLoop condition body | ifThen condition positive =>
    rw [Statement.intact, Bool.and_eq_true] at intact
    exact List.forall_mem_singleton.2 intact.2
  | ifElse condition positive negative =>
    rw [Statement.intact, Bool.and_eq_true, Bool.and_eq_true] at intact
    exact List.forall_mem_cons.2 ⟨intact.1.2, List.forall_mem_singleton.2 intact.2⟩
  | ret | assign | store | call | skip | broken => exact List.forall_mem_nil _

theorem Inside.intact (inside : inner.Inside b) (intact : b.intact) : inner.intact := by
  induction inside with
  | refl => exact intact
  | part _ mem ih => exact ih (intact_parts intact _ mem)

/-- Only what is broken has a defect. -/
theorem Raises.ne_malformed (raises : b.Raises err) (intact : b.intact) (defect : Defect) (span : Span) :
    err ≠ .malformed defect span := by
  rintro rfl
  cases raises
  cases intact

end Statement

/-- **Compiling an intact program** finds no defect. -/
theorem Program.compile_ne_malformed {p : Program} (intact : p.Intact) (defect : Defect) (span : Span) :
    p.compile ≠ .error (.malformed defect span) := by
  intro failed
  cases raises_of_compile failed with
  | text mem =>
    obtain ⟨text, eq⟩ := intact.texts _ mem
    cases eq
  | function mem raises =>
    cases raises with
    | noBody none =>
      obtain ⟨body, does, -⟩ := intact.bodies _ mem
      rw [none] at does
      cases does
  | statement mem does inside raises =>
    obtain ⟨body, does', whole⟩ := intact.bodies _ mem
    obtain rfl := Option.some.inj (does.symm.trans does')
    exact raises.ne_malformed (inside.intact whole) defect span rfl
  | expression mem does inside among inside' raises =>
    obtain ⟨body, does', whole⟩ := intact.bodies _ mem
    obtain rfl := Option.some.inj (does.symm.trans does')
    have operand := Statement.intact_operands (inside.intact whole) _ among
    exact raises.ne_malformed (inside'.intact operand) defect span rfl

end Polyglot.B
