import Polyglot.Expr.Evaluate
import Polyglot.Proofs.B.Emission
import Polyglot.Proofs.B.Semantics

/-!
# Terms as expressions of B

A term and an expression of B are *twins* if they are put together in the same way. The two
have the same value, and where the one has none the other has none for the same reason
(`Twins.eval`).

The compiler does part of the arithmetic itself. What it knows is the value
(`Twins.value_of_compile`), and what it refuses to divide by is zero when it is evaluated
(`Twins.divides_of_compile`). If it refuses nothing, then nothing but a division can fail.
-/

namespace Polyglot.Expr

open Polyglot.Source
open Polyglot.Assembly (Line)

/-- The same operator of B. -/
def Operator.inB : Operator → B.Operator
  | .add => .add
  | .sub => .sub
  | .mul => .mul
  | .div => .div
  | .mod => .mod

theorem Operator.compute?_inB (op : Operator) (a b : Int32) : op.inB.compute? a b = op.compute? a b := by
  cases op <;> rfl

/-- Operators with no value for some operands are those that divide, and the right operand is
zero. -/
theorem Operator.compute?_eq_none {op : Operator} {a b : Int32} (divides : op.inB.divides)
    (zero : b = 0) : op.compute? a b = none := by
  cases op with
  | add | sub | mul => cases divides
  | div | mod => exact if_pos zero

/-- Whether an expression of B is put together like a term, the variables of which are among
some names. -/
inductive Twins (names : List String) : Term → B.Expression → Prop
  /-- A literal. -/
  | number {value : Int} {span : Span} : Twins names (.number value) (.integer value span)
  /-- A variable. -/
  | variable {name : String} {span span' : Span} (mem : name ∈ names) :
      Twins names (.variable name span) (.variable name span')
  /-- The negative of a term. -/
  | negate {t : Term} {e : B.Expression} (operand : Twins names t e) :
      Twins names (.negate t) (.negate e)
  /-- An operator between two terms. -/
  | binary {op : Operator} {t u : Term} {e f : B.Expression} {span span' : Span}
      (left : Twins names t e) (right : Twins names u f) :
      Twins names (.binary op t u span) (.binary op.inB e f span')
  /-- A literal without a value. -/
  | invalid {span span' : Span} :
      Twins names (.broken [] .invalidNumber span) (.broken [] .invalidInteger span')

/-- How the run of an expression of B ends if evaluation ends in this way. -/
def outcome : Except EvalError Int32 → Except B.Stop Int32
  | .ok value => .ok value
  | .error (.divisionByZero _) => .error .divisionByZero
  | .error _ => .error .undefined

theorem outcome_ne_undefined {x : Except EvalError Int32} :
    outcome x ≠ .error .undefined ↔ (∃ a, x = .ok a) ∨ ∃ span, x = .error (.divisionByZero span) := by
  rcases x with (_ | span | _) | value
  case ok => exact ⟨fun _ => .inl ⟨value, rfl⟩, fun _ => nofun⟩
  case error.divisionByZero => exact ⟨fun _ => .inr ⟨span, rfl⟩, fun _ => nofun⟩
  all_goals exact ⟨fun defined => absurd rfl defined, fun ends => by rcases ends with ⟨_, eq⟩ | ⟨_, eq⟩ <;> cases eq⟩

section

variable {env : String → Option Int32} {t u : Term} {op : Operator} {a b : Int32} {span : Span}

theorem eval_negate : eval env (.negate t) = do return -(← eval env t) := rfl

theorem eval_binary : eval env (.binary op t u span) = (do
    let a ← eval env t
    let b ← eval env u
    match op.compute? a b with
    | some value => return value
    | none => throw (.divisionByZero span)) := rfl

theorem eval_negate_of_ok (value : eval env t = .ok a) : eval env (.negate t) = .ok (-a) := by
  rw [eval_negate, value]
  rfl

theorem eval_negate_of_error {e : EvalError} (fails : eval env t = .error e) :
    eval env (.negate t) = .error e := by
  rw [eval_negate, fails]
  rfl

theorem eval_binary_of_ok (left : eval env t = .ok a) (right : eval env u = .ok b) :
    eval env (.binary op t u span)
      = ((op.compute? a b).map Except.ok).getD (.error (.divisionByZero span)) := by
  rw [eval_binary, left, right]
  simp only [bind, Except.bind]
  cases op.compute? a b <;> rfl

theorem eval_binary_of_left {e : EvalError} (fails : eval env t = .error e) :
    eval env (.binary op t u span) = .error e := by
  rw [eval_binary, fails]
  rfl

theorem eval_binary_of_right {e : EvalError} (left : eval env t = .ok a)
    (fails : eval env u = .error e) : eval env (.binary op t u span) = .error e := by
  rw [eval_binary, left, fails]
  rfl

end

/-- Whether the value of a term is what the compiler knows of it, or is not known, and there is
a value unless something is divided by zero. -/
structure Knows (v : B.Value) (x : Except EvalError Int32) : Prop where
  /-- What is known is the value. -/
  value : ∀ k, v = .int k → x = .ok k
  /-- There is no value only for a division by zero. -/
  defined : (∃ a, x = .ok a) ∨ ∃ span, x = .error (.divisionByZero span)

namespace Twins

variable {names : List String} {t : Term} {e : B.Expression} {env : String → Option Int32}

/-- **Twins have the same value**, or none for the same reason, if the names have the same
values. -/
theorem eval (h : Twins names t e) {inner : B.Env} (same : ∀ x ∈ names, inner x = env x)
    (calls : B.Calls) (out : Array UInt8) :
    e.eval calls inner out = (outcome (Expr.eval env t), out) := by
  induction h with
  | number | invalid => rfl
  | @«variable» name span span' mem =>
    show B.Run.ofOption _ (inner name) out = (outcome (Expr.eval env (.variable name span)), out)
    rw [same name mem, Expr.eval]
    cases env name <;> rfl
  | @negate t e _ ih =>
    rw [B.Expression.eval, B.Run.andThen, ih]
    cases value : Expr.eval env t with
    | ok a =>
      rw [eval_negate_of_ok value]
      rfl
    | error reason =>
      rw [eval_negate_of_error value]
      cases reason <;> rfl
  | @binary op t u e f span span' _ _ ih ih' =>
    rw [B.Expression.eval, B.Run.andThen, ih]
    -- the left operand comes first, and its error is that of the whole
    cases left : Expr.eval env t with
    | error reason =>
      rw [eval_binary_of_left left]
      cases reason <;> rfl
    | ok a =>
      show B.Run.andThen _ _ _ = _
      rw [B.Run.andThen, ih']
      cases right : Expr.eval env u with
      | error reason =>
        rw [eval_binary_of_right left right]
        cases reason <;> rfl
      | ok b =>
        rw [eval_binary_of_ok left right]
        show B.Run.ofOption _ (op.inB.compute? a b) out = _
        rw [op.compute?_inB]
        cases op.compute? a b <;> rfl

section

variable {s : B.Scope} {σ σ' : B.Supply} {result : List Line × B.Value}

/-- **What the compiler knows** of the twin of a term is the value of the term. -/
theorem value_of_compile (h : Twins names t e) (bound : ∀ x ∈ names, (env x).isSome)
    (done : e.compile s σ = .ok (result, σ')) : Knows result.2 (Expr.eval env t) := by
  induction h generalizing σ σ' result with
  | @number value span =>
    rw [(B.Expression.compile_integer done).1]
    exact ⟨fun k eq => congrArg Except.ok (B.Value.int.inj eq), .inl ⟨_, rfl⟩⟩
  | @«variable» name span span' mem =>
    obtain ⟨a, value⟩ := Option.isSome_iff_exists.1 (bound name mem)
    rw [(B.Expression.compile_variable done).2.1]
    exact ⟨fun k eq => (by cases eq), .inl ⟨a, by rw [Expr.eval, value]⟩⟩
  | @negate t e _ ih =>
    obtain ⟨code, value, σ₁, compiled, known⟩ := B.Expression.compile_negate done
    have operand := ih compiled
    refine ⟨fun k eq => ?_, ?_⟩
    · rcases known with ⟨k', rfl, rfl, -⟩ | kept
      · rw [eval_negate_of_ok (operand.value k' rfl), B.Value.int.inj eq]
      · obtain ⟨rfl, -⟩ := Prod.mk.inj (Except.ok.inj kept)
        cases eq
    · rcases operand.defined with ⟨a, ends⟩ | ⟨span, ends⟩
      · exact .inl ⟨-a, eval_negate_of_ok ends⟩
      · exact .inr ⟨span, eval_negate_of_error ends⟩
  | @binary op t u e f span span' _ _ ih ih' =>
    -- what was folded is what is computed, and code that was kept has no number for a value
    obtain ⟨code, a, σ₁, code', b, σ₂, first, second, -, known⟩ := B.Expression.compile_binary done
    have left := ih first
    have right := ih' second
    refine ⟨fun k eq => ?_, ?_⟩
    · rcases known with ⟨value, folded, rfl, -⟩ | kept
      · obtain ⟨a', b', c, rfl, rfl, rfl, computed⟩ := op.inB.operands_of_fold? folded
        rw [op.compute?_inB] at computed
        rw [eval_binary_of_ok (left.value a' rfl) (right.value b' rfl), computed,
          B.Value.int.inj eq]
        rfl
      · obtain ⟨rfl, -⟩ := Prod.mk.inj (Except.ok.inj kept)
        cases eq
    · rcases left.defined with ⟨a, first⟩ | ⟨span, first⟩
      · rcases right.defined with ⟨b, second⟩ | ⟨span, second⟩
        · rw [eval_binary_of_ok first second]
          cases op.compute? a b with
          | some c => exact .inl ⟨c, rfl⟩
          | none => exact .inr ⟨_, rfl⟩
        · exact .inr ⟨span, eval_binary_of_right first second⟩
      · exact .inr ⟨span, eval_binary_of_left first⟩
  | invalid => exact absurd done B.Expression.compile_broken_ne

/-- **What the compiler refuses** to divide by is zero when the term is evaluated. -/
theorem divides_of_compile (h : Twins names t e) (bound : ∀ x ∈ names, (env x).isSome) {span : Span}
    (refused : e.compile s σ = .error (.divisionByZero span)) :
    ∃ span', Expr.eval env t = .error (.divisionByZero span') := by
  induction h generalizing σ with
  | number =>
    simp only [B.Expression.compile] at refused
    split at refused <;> cases refused
  | «variable» =>
    simp only [B.Expression.compile] at refused
    split at refused <;> cases refused
  | @negate t e _ ih =>
    simp only [B.Expression.compile] at refused
    rcases B.Emit.bind_eq_error.1 refused with refused | ⟨⟨code, value⟩, σ₁, -, refused⟩
    · obtain ⟨span', ends⟩ := ih refused
      exact ⟨span', eval_negate_of_error ends⟩
    · cases value <;> cases refused
  | @binary op t u e f rightSpan signSpan twin twin' ih ih' =>
    simp only [B.Expression.compile] at refused
    rcases B.Emit.bind_eq_error.1 refused with refused | ⟨⟨code, a⟩, σ₁, first, refused⟩
    · obtain ⟨span', ends⟩ := ih refused
      exact ⟨span', eval_binary_of_left ends⟩
    rcases (twin.value_of_compile bound first).defined with ⟨left, ends⟩ | ⟨span', ends⟩
    · rcases B.Emit.bind_eq_error.1 refused with refused | ⟨⟨code', b⟩, σ₂, second, refused⟩
      · obtain ⟨span', ends'⟩ := ih' refused
        exact ⟨span', eval_binary_of_right ends ends'⟩
      dsimp only at refused
      split at refused
      · rename_i zero
        obtain ⟨divides, zero⟩ := Bool.and_eq_true_iff.1 zero
        have right := (twin'.value_of_compile bound second).value 0 (beq_iff_eq.1 zero)
        exact ⟨rightSpan, by rw [eval_binary_of_ok ends right, Operator.compute?_eq_none divides rfl]; rfl⟩
      · cases folded : op.inB.fold? a b <;> rw [folded] at refused <;> cases refused
    · exact ⟨span', eval_binary_of_left ends⟩
  | invalid => cases refused

end

end Twins

end Polyglot.Expr
