import Polyglot.Proofs.B.Framing

/-!
# What errors of the compiler are about

An expression has few errors of its own (`Expression.Raises`), and all others are those of its operands; so an
error is that of some expression inside (`Expression.exists_raises`), and it is about the span that this expression
has (`Expression.Raises.span?_eq`). The same goes for statements (`Statement.exists_raises`), and from it follows what
errors a program can have (`Program.raises_of_compile`).
-/

namespace Polyglot.B

open Polyglot.Source
open Polyglot.Machine (Syscall)

variable {s : Scope} {σ : Supply} {err : CompileError}

/-! ## Errors of expressions -/

namespace Expression

/-- Whether an error is one that an expression has itself, whatever its operands are. -/
inductive Raises : Expression → CompileError → Prop
  /-- A number is too large. -/
  | integer {value : Int} {span : Span} : Raises (.integer value span) (.literalOutOfRange value span)
  /-- A variable has no slot. -/
  | «variable» {name : String} {span : Span} : Raises (.variable name span) (.undefinedVariable name span)
  /-- The right operand is known to be zero. -/
  | binary {op : Operator} {left right : Expression} {span : Span} :
    Raises (.binary op left right span) (.divisionByZero span)
  /-- There is no such function. -/
  | unknown {callee : String} {arguments : List Expression} {span : Span} :
    Raises (.call callee arguments span) (.unknownFunction callee span)
  /-- The function takes another number of arguments. -/
  | arity {callee : String} {arguments : List Expression} {span : Span} {expected : Nat} :
    Raises (.call callee arguments span) (.arityMismatch callee expected arguments.length span)
  /-- An offset is too large. -/
  | load {base : Expression} {offset : Int} {span : Span} :
    Raises (.load base offset span) (.literalOutOfRange offset span)
  /-- There is a defect. -/
  | broken {before : List Expression} {defect : Defect} {span : Span} :
    Raises (.broken before defect span) (.malformed defect span)

/-- The span that errors of an expression itself are about. -/
def span? : Expression → Option Span
  | .integer _ span | .variable _ span | .binary _ _ _ span | .call _ _ span | .load _ _ span | .broken _ _ span =>
    some span
  | .text _ | .negate _ | .isZero _ => none

theorem Raises.span?_eq {e : Expression} (h : e.Raises err) : err.span? = e.span? := by
  cases h <;> rfl

end Expression

/-- Compiling expressions fails where compiling one of them does. -/
theorem exists_of_compileAll_error {es : List Expression} (failed : compileAll s es σ = .error err) :
    ∃ e ∈ es, ∃ τ, e.compile s τ = .error err := by
  induction es generalizing σ with
  | nil => rw [compileAll] at failed; cases failed
  | cons e es ih =>
    rw [compileAll] at failed
    obtain failed | ⟨r, σ₁, -, failed⟩ := Emit.bind_eq_error.1 failed
    · exact ⟨e, List.mem_cons_self, σ, failed⟩
    obtain failed | ⟨r', σ₂, -, failed⟩ := Emit.bind_eq_error.1 failed
    · obtain ⟨e, mem, τ, failed⟩ := ih failed
      exact ⟨e, List.mem_cons_of_mem _ mem, τ, failed⟩
    · cases failed

/-- **An error with an expression** is its own or that of an operand. -/
theorem Expression.raises_or_exists_of_compile {e : Expression} (failed : e.compile s σ = .error err) :
    e.Raises err ∨ ∃ o ∈ e.operands, ∃ τ, o.compile s τ = .error err := by
  cases e with
  | integer value span =>
    rw [Expression.compile] at failed
    split at failed
    · cases failed
    · cases failed
      exact .inl .integer
  | text text =>
    rw [Expression.compile] at failed
    cases failed
  | «variable» name span =>
    rw [Expression.compile] at failed
    split at failed
    · cases failed
    · cases failed
      exact .inl .variable
  | negate operand | isZero operand =>
    rw [Expression.compile] at failed
    obtain failed | ⟨⟨code, value⟩, σ₁, -, failed⟩ := Emit.bind_eq_error.1 failed
    · exact .inr ⟨operand, List.mem_cons_self, σ, failed⟩
    · dsimp only at failed
      split at failed <;> cases failed
  | binary op left right span =>
    rw [Expression.compile] at failed
    obtain failed | ⟨⟨code, a⟩, σ₁, -, failed⟩ := Emit.bind_eq_error.1 failed
    · exact .inr ⟨left, List.mem_cons_self, σ, failed⟩
    obtain failed | ⟨⟨code', b⟩, σ₂, -, failed⟩ := Emit.bind_eq_error.1 failed
    · exact .inr ⟨right, List.mem_cons_of_mem _ List.mem_cons_self, σ₁, failed⟩
    dsimp only at failed
    split at failed
    · cases failed
      exact .inl .binary
    · cases folded : op.fold? a b <;> rw [folded] at failed <;> cases failed
  | call callee arguments span =>
    rw [Expression.compile] at failed
    -- the arguments are counted before any of them is compiled
    obtain failed | ⟨expected, σ₁, -, failed⟩ := Emit.bind_eq_error.1 failed
    · rw [Scope.arity] at failed
      split at failed <;> cases failed
      exact .inl .unknown
    dsimp only at failed
    split at failed
    · cases failed
      exact .inl .arity
    obtain failed | ⟨⟨code, values⟩, σ₂, -, failed⟩ := Emit.bind_eq_error.1 failed
    · obtain ⟨o, mem, τ, failed⟩ := exists_of_compileAll_error failed
      exact .inr ⟨o, mem, τ, failed⟩
    · cases host : Syscall.ofName? callee <;> rw [host] at failed <;> cases failed
  | load base offset span =>
    rw [Expression.compile] at failed
    dsimp only at failed
    split at failed
    · cases failed
      exact .inl .load
    obtain failed | ⟨⟨code, value⟩, σ₁, -, failed⟩ := Emit.bind_eq_error.1 failed
    · exact .inr ⟨base, List.mem_cons_self, σ, failed⟩
    · cases failed
  | broken before defect span =>
    rw [Expression.compile] at failed
    obtain failed | ⟨r, σ₁, -, failed⟩ := Emit.bind_eq_error.1 failed
    · obtain ⟨o, mem, τ, failed⟩ := exists_of_compileAll_error failed
      exact .inr ⟨o, mem, τ, failed⟩
    · cases failed
      exact .inl .broken

/-- **An error with an expression** is that of an expression inside. -/
theorem Expression.exists_raises {e : Expression} (failed : e.compile s σ = .error err) :
    ∃ inner : Expression, inner.Inside e ∧ inner.Raises err := by
  induction e using Expression.induct generalizing σ with
  | step e ih =>
    obtain raises | ⟨o, mem, τ, failed⟩ := raises_or_exists_of_compile failed
    · exact ⟨e, .refl, raises⟩
    · obtain ⟨inner, inside, raises⟩ := ih o mem failed
      exact ⟨inner, .operand inside mem, raises⟩

/-! ## Errors of statements -/

namespace Statement

/-- Whether an error is one that a statement has itself, whatever its operands and parts are. -/
inductive Raises : Statement → CompileError → Prop
  /-- An offset is too large. -/
  | store {base e : Expression} {offset : Int} {span : Span} :
    Raises (.store base offset span e) (.literalOutOfRange offset span)
  /-- There is a defect. -/
  | broken {before : List Expression} {defect : Defect} {span : Span} :
    Raises (.broken before defect span) (.malformed defect span)

/-- The span that errors of a statement itself are about. -/
def span? : Statement → Option Span
  | .store _ _ span _ | .broken _ _ span => some span
  | .block _ | .whileLoop .. | .ifThen .. | .ifElse .. | .ret _ | .assign .. | .call _ | .skip => none

theorem Raises.span?_eq {b : Statement} (h : b.Raises err) : err.span? = b.span? := by
  cases h <;> rfl

end Statement

theorem exists_of_compileBlock_error {bs : List Statement} (failed : compileBlock s bs σ = .error err) :
    ∃ b ∈ bs, ∃ τ, b.compile s τ = .error err := by
  induction bs generalizing σ with
  | nil => rw [compileBlock] at failed; cases failed
  | cons b bs ih =>
    rw [compileBlock] at failed
    obtain failed | ⟨r, σ₁, -, failed⟩ := Emit.bind_eq_error.1 failed
    · exact ⟨b, List.mem_cons_self, σ, failed⟩
    obtain failed | ⟨r', σ₂, -, failed⟩ := Emit.bind_eq_error.1 failed
    · obtain ⟨b, mem, τ, failed⟩ := ih failed
      exact ⟨b, List.mem_cons_of_mem _ mem, τ, failed⟩
    · cases failed

/-- **An error with a statement** is its own, that of an operand or that of a part. -/
theorem Statement.raises_or_exists_of_compile {b : Statement} (failed : b.compile s σ = .error err) :
    b.Raises err ∨ (∃ o ∈ b.operands, ∃ τ, o.compile s τ = .error err)
      ∨ ∃ part ∈ b.parts, ∃ τ, part.compile s τ = .error err := by
  cases b with
  | block body =>
    rw [Statement.compile, releaseTemporaries_bind] at failed
    exact .inr (.inr (exists_of_compileBlock_error failed))
  | whileLoop condition body =>
    rw [Statement.compile, releaseTemporaries_bind, freshLabel_bind, freshLabel_bind] at failed
    obtain failed | ⟨r, σ₁, -, failed⟩ := Emit.bind_eq_error.1 failed
    · exact .inr (.inl ⟨condition, List.mem_cons_self, _, failed⟩)
    obtain failed | ⟨code, σ₂, -, failed⟩ := Emit.bind_eq_error.1 failed
    · exact .inr (.inr ⟨body, List.mem_cons_self, _, failed⟩)
    · cases failed
  | ifThen condition positive =>
    rw [Statement.compile, releaseTemporaries_bind, freshLabel_bind] at failed
    obtain failed | ⟨r, σ₁, -, failed⟩ := Emit.bind_eq_error.1 failed
    · exact .inr (.inl ⟨condition, List.mem_cons_self, _, failed⟩)
    obtain failed | ⟨code, σ₂, -, failed⟩ := Emit.bind_eq_error.1 failed
    · exact .inr (.inr ⟨positive, List.mem_cons_self, _, failed⟩)
    · cases failed
  | ifElse condition positive negative =>
    rw [Statement.compile, releaseTemporaries_bind, freshLabel_bind] at failed
    obtain failed | ⟨r, σ₁, -, failed⟩ := Emit.bind_eq_error.1 failed
    · exact .inr (.inl ⟨condition, List.mem_cons_self, _, failed⟩)
    obtain failed | ⟨code, σ₂, -, failed⟩ := Emit.bind_eq_error.1 failed
    · exact .inr (.inr ⟨positive, List.mem_cons_self, _, failed⟩)
    rw [freshLabel_bind] at failed
    obtain failed | ⟨code', σ₃, -, failed⟩ := Emit.bind_eq_error.1 failed
    · exact .inr (.inr ⟨negative, List.mem_cons_of_mem _ List.mem_cons_self, _, failed⟩)
    · cases failed
  | ret value =>
    cases value with
    | none =>
      rw [Statement.compile, releaseTemporaries_bind] at failed
      cases failed
    | some e =>
      rw [Statement.compile, releaseTemporaries_bind] at failed
      obtain failed | ⟨r, σ₁, -, failed⟩ := Emit.bind_eq_error.1 failed
      · exact .inr (.inl ⟨e, List.mem_cons_self, _, failed⟩)
      · cases failed
  | assign target e | call e =>
    rw [Statement.compile, releaseTemporaries_bind] at failed
    obtain failed | ⟨r, σ₁, -, failed⟩ := Emit.bind_eq_error.1 failed
    · exact .inr (.inl ⟨e, List.mem_cons_self, _, failed⟩)
    · cases failed
  | store base offset span e =>
    rw [Statement.compile, releaseTemporaries_bind] at failed
    dsimp only at failed
    -- the offset is checked before there is code for an operand
    split at failed
    · cases failed
      exact .inl .store
    obtain failed | ⟨r, σ₁, -, failed⟩ := Emit.bind_eq_error.1 failed
    · exact .inr (.inl ⟨base, List.mem_cons_self, _, failed⟩)
    obtain failed | ⟨r', σ₂, -, failed⟩ := Emit.bind_eq_error.1 failed
    · exact .inr (.inl ⟨e, List.mem_cons_of_mem _ List.mem_cons_self, _, failed⟩)
    · cases failed
  | skip =>
    rw [Statement.compile, releaseTemporaries_bind] at failed
    cases failed
  | broken before defect span =>
    rw [Statement.compile, releaseTemporaries_bind] at failed
    obtain failed | ⟨r, σ₁, -, failed⟩ := Emit.bind_eq_error.1 failed
    · obtain ⟨o, mem, τ, failed⟩ := exists_of_compileAll_error failed
      exact .inr (.inl ⟨o, mem, τ, failed⟩)
    · cases failed
      exact .inl .broken

/-- **An error with a statement** is that of a statement inside, or of an expression inside one of its
operands. -/
theorem Statement.exists_raises {b : Statement} (failed : b.compile s σ = .error err) :
    ∃ inner : Statement, inner.Inside b
      ∧ (inner.Raises err ∨ ∃ o ∈ inner.operands, ∃ e : Expression, e.Inside o ∧ e.Raises err) := by
  induction b using Statement.induct generalizing σ with
  | step b ih =>
    obtain raises | ⟨o, mem, τ, failed⟩ | ⟨part, mem, τ, failed⟩ := raises_or_exists_of_compile failed
    · exact ⟨b, .refl, .inl raises⟩
    · exact ⟨b, .refl, .inr ⟨o, mem, Expression.exists_raises failed⟩⟩
    · obtain ⟨inner, inside, raises⟩ := ih part mem failed
      exact ⟨inner, .part inside mem, raises⟩

/-! ## Errors of programs -/

/-- Whether an error is one that a function has itself, whatever it does. -/
inductive Function.Raises (f : Function) : CompileError → Prop
  /-- It has too many parameters. -/
  | tooMany : f.Raises (.tooManyParameters f.name f.parameters.length f.span)
  /-- Its name is not its own. -/
  | duplicate : f.Raises (.duplicateFunction f.name f.span)
  /-- It has no body. -/
  | noBody : f.body = none → f.Raises (.malformed (.noBody f.name) f.span)

theorem Function.Raises.span?_eq {f : Function} (h : f.Raises err) : err.span? = some f.span := by
  cases h <;> rfl

section

variable {constants : List String} {arities : List (String × Nat)} {f : Function} {fs : List Function}

theorem exists_raises_of_aritiesFrom (failed : aritiesFrom arities fs = .error err) : ∃ f ∈ fs, f.Raises err := by
  fun_induction aritiesFrom arities fs with
  | case1 => cases failed
  | case2 known f fs =>
    cases failed
    exact ⟨f, List.mem_cons_self, .tooMany⟩
  | case3 known f fs =>
    cases failed
    exact ⟨f, List.mem_cons_self, .duplicate⟩
  | case4 known f fs _ _ _ ih =>
    obtain ⟨f, mem, raises⟩ := ih failed
    exact ⟨f, List.mem_cons_of_mem _ mem, raises⟩

/-- An error with a function is its own or that of its body. -/
theorem Function.raises_or_exists_of_compile (failed : f.compile constants arities σ = .error err) :
    f.Raises err ∨ ∃ body s τ, f.body = some body ∧ body.compile s τ = .error err := by
  rw [Function.compile] at failed
  cases does : f.body with
  | none =>
    rw [does] at failed
    cases failed
    exact .inl (.noBody does)
  | some body =>
    rw [does] at failed
    dsimp only at failed
    rw [freshLabel_bind] at failed
    obtain failed | ⟨_, σ₁, -, failed⟩ := Emit.bind_eq_error.1 failed
    · cases failed
    obtain failed | ⟨_, σ₂, -, failed⟩ := Emit.bind_eq_error.1 failed
    · exact .inr ⟨body, _, _, rfl, failed⟩
    · cases failed

theorem exists_of_compileFunctions_error (failed : compileFunctions constants arities fs σ = .error err) :
    ∃ f ∈ fs, ∃ τ, f.compile constants arities τ = .error err := by
  induction fs generalizing σ with
  | nil => cases failed
  | cons f fs ih =>
    obtain failed | ⟨code, σ₁, -, failed⟩ := Emit.bind_eq_error.1 failed
    · exact ⟨f, List.mem_cons_self, σ, failed⟩
    obtain failed | ⟨rest, σ₂, -, failed⟩ := Emit.bind_eq_error.1 failed
    · obtain ⟨f, mem, τ, failed⟩ := ih failed
      exact ⟨f, List.mem_cons_of_mem _ mem, τ, failed⟩
    · cases failed

end

/-- Whether an error is one that a program can have. -/
inductive Program.Raises (p : Program) : CompileError → Prop
  /-- A text has no value. -/
  | text {span : Span} : .error span ∈ p.texts → p.Raises (.malformed .invalidText span)
  /-- It is an error of a function. -/
  | function {f : Function} {err : CompileError} : f ∈ p.functions → f.Raises err → p.Raises err
  /-- There is no function to start with. -/
  | missingMain : p.Raises .missingMain
  /-- It is an error of a statement of a function. -/
  | statement {f : Function} {body inner : Statement} {err : CompileError} : f ∈ p.functions → f.body = some body →
    inner.Inside body → inner.Raises err → p.Raises err
  /-- It is an error of an expression of a function. -/
  | expression {f : Function} {body inner : Statement} {o e : Expression} {err : CompileError} : f ∈ p.functions →
    f.body = some body → inner.Inside body → o ∈ inner.operands → e.Inside o → e.Raises err → p.Raises err

/-- **An error with a program** is that of one of its parts. -/
theorem Program.raises_of_compile {p : Program} (failed : p.compile = .error err) : p.Raises err := by
  obtain failed | ⟨constants, -, failed⟩ := Except.bind_eq_error.1 failed
  · obtain ⟨span, made, rfl⟩ := Except.mapError_eq_error.1 failed
    exact .text (Except.mem_of_mapM_id (Except.map_eq_error.1 made))
  obtain failed | ⟨arities, -, failed⟩ := Except.bind_eq_error.1 failed
  · obtain ⟨f, mem, raises⟩ := exists_raises_of_aritiesFrom failed
    exact .function mem raises
  dsimp only at failed
  split at failed
  · cases failed
    exact .missingMain
  obtain failed | ⟨lines, -, failed⟩ := Except.bind_eq_error.1 failed
  · replace failed := Except.map_eq_error.1 failed
    rw [freshLabel_bind] at failed
    obtain failed | ⟨code, σ₁, -, failed⟩ := Emit.bind_eq_error.1 failed
    · obtain ⟨f, mem, τ, failed⟩ := exists_of_compileFunctions_error failed
      obtain raises | ⟨body, s, τ, does, failed⟩ := Function.raises_or_exists_of_compile failed
      · exact .function mem raises
      · obtain ⟨inner, inside, raises | ⟨o, among, e, inside', raises⟩⟩ := Statement.exists_raises failed
        · exact .statement mem does inside raises
        · exact .expression mem does inside among inside' raises
    · cases failed
  · cases failed

end Polyglot.B
