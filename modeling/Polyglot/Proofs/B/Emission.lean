import Polyglot.B.Compile
import Polyglot.Proofs.Success

/-!
# What the compiler has done

The compiler is a computation with a supply of labels and temporaries, and what is
known about it is that it has succeeded. The lemmas of this module take that apart, one
for each kind of expression and statement: which parts were compiled with which supply,
and what was made of them.

The supply only ever grows within a statement (`Supply.Within`), and the most
temporaries that a statement has used never become fewer.
-/

namespace Polyglot.B

open Polyglot.Source
open Polyglot.Assembly (Line Listing Operand)
open Polyglot.Machine (Register Syscall fits)

/-! ## Computations with a supply -/

namespace Emit

variable {α β : Type} {σ σ' : Supply}

theorem bind_eq_ok {x : Emit α} {f : α → Emit β} {r : β × Supply} :
    (x >>= f) σ = .ok r ↔ ∃ a σ', x σ = .ok (a, σ') ∧ f a σ' = .ok r := by
  constructor
  · intro h
    obtain ⟨⟨a, σ'⟩, first, second⟩ := Except.bind_eq_ok.1 h
    exact ⟨a, σ', first, second⟩
  · rintro ⟨a, σ', first, second⟩
    exact Except.bind_eq_ok.2 ⟨(a, σ'), first, second⟩

theorem bind_eq_error {x : Emit α} {f : α → Emit β} {e : CompileError} :
    (x >>= f) σ = .error e ↔ x σ = .error e ∨ ∃ a σ', x σ = .ok (a, σ') ∧ f a σ' = .error e := by
  refine Except.bind_eq_error.trans (or_congr_right ?_)
  exact ⟨fun ⟨(a, σ'), first, second⟩ => ⟨a, σ', first, second⟩,
    fun ⟨a, σ', first, second⟩ => ⟨(a, σ'), first, second⟩⟩

theorem pure_eq_ok {a : α} {r : α × Supply} : (pure a : Emit α) σ = .ok r ↔ r = (a, σ) := by
  show Except.ok (a, σ) = .ok r ↔ _
  rw [Except.ok.injEq, eq_comm]

theorem throw_ne_ok {e : CompileError} {r : α × Supply} : (throw e : Emit α) σ ≠ .ok r := nofun

theorem lift_eq_ok {x : Except CompileError α} {r : α × Supply} :
    (liftM x : Emit α) σ = .ok r ↔ ∃ a, x = .ok a ∧ r = (a, σ) := by
  cases x with
  | error e => exact ⟨nofun, nofun⟩
  | ok a =>
    show Except.ok (a, σ) = .ok r ↔ _
    simp [eq_comm]

end Emit

/-! ## The supply -/

/-- Whether there are at least as many temporaries in use, and were at most. -/
structure Supply.Within (σ σ' : Supply) : Prop where
  /-- As many are in use. -/
  temporaries : σ.temporaries ≤ σ'.temporaries
  /-- As many were in use. -/
  peak : σ.peak ≤ σ'.peak

namespace Supply.Within

variable {σ σ' σ'' : Supply}

theorem refl : Within σ σ := ⟨Nat.le_refl _, Nat.le_refl _⟩

theorem trans (first : Within σ σ') (second : Within σ' σ'') : Within σ σ'' :=
  ⟨Nat.le_trans first.temporaries second.temporaries, Nat.le_trans first.peak second.peak⟩

end Supply.Within

/-- The supply after a temporary was taken. -/
def Supply.kept (σ : Supply) : Supply :=
  { σ with temporaries := σ.temporaries + 1, peak := max σ.peak (σ.temporaries + 1) }

/-- The supply after a label was taken. -/
def Supply.labeled (σ : Supply) : Supply := { σ with labels := σ.labels + 1 }

/-- The supply at the start of a statement. -/
def Supply.released (σ : Supply) : Supply := { σ with temporaries := 0 }

theorem Supply.within_labeled (σ : Supply) : σ.Within σ.labeled := ⟨Nat.le_refl _, Nat.le_refl _⟩

theorem Supply.within_kept (σ : Supply) : σ.Within σ.kept :=
  ⟨Nat.le_succ _, Nat.le_max_left _ _⟩

variable {s : Scope} {σ σ' : Supply} {code : List Line} {value : Value} {r : Register}

theorem keep_eq (s : Scope) (code : List Line) (r : Register) (σ : Supply) :
    s.keep code r σ = .ok ((code ++ [saveTo (s.names.length + (σ.temporaries + 1)) r],
      .slot (s.names.length + (σ.temporaries + 1))), σ.kept) := rfl

/-- What is kept is put into the next temporary. -/
theorem eq_of_keep {code' : List Line} (kept : s.keep code r σ = .ok ((code', value), σ')) :
    code' = code ++ [saveTo (s.names.length + (σ.temporaries + 1)) r]
      ∧ value = .slot (s.names.length + (σ.temporaries + 1)) ∧ σ' = σ.kept := by
  rw [keep_eq] at kept
  obtain ⟨same, rfl⟩ := Prod.mk.inj (Except.ok.inj kept)
  obtain ⟨rfl, rfl⟩ := Prod.mk.inj same
  exact ⟨rfl, rfl, rfl⟩

theorem freshLabel_bind {α : Type} (f : String → Emit α) (σ : Supply) :
    (freshLabel >>= f) σ = f (numbered σ.labels) σ.labeled := rfl

theorem releaseTemporaries_bind {α : Type} (f : Unit → Emit α) (σ : Supply) :
    (releaseTemporaries >>= f) σ = f () σ.released := rfl

/-! ## Expressions -/

/-- What is known of an operator at compile time is its result for operands that are known. -/
theorem Operator.operands_of_fold? {op : Operator} {left right value : Value}
    (folded : op.fold? left right = some value) :
    ∃ a b c, left = .int a ∧ right = .int b ∧ value = .int c ∧ op.compute? a b = some c := by
  unfold fold? at folded
  split at folded
  · rename_i a b
    obtain ⟨c, computed, folded⟩ := Option.bind_eq_some_iff.1 folded
    split at folded
    · exact ⟨a, b, c, rfl, rfl, (Option.some.inj folded).symm, computed⟩
    · cases folded
  · cases folded

namespace Expression

variable {result : List Line × Value} {e left right : Expression} {span : Span}

theorem compile_integer {n : Int} (done : (integer n span).compile s σ = .ok (result, σ')) :
    result = ([], .int (Int32.ofInt n)) ∧ σ' = σ := by
  simp only [compile] at done
  split at done
  · simpa using Emit.pure_eq_ok.1 done
  · exact absurd done Emit.throw_ne_ok

theorem compile_variable {name : String}
    (done : (Expression.variable name span).compile s σ = .ok (result, σ')) :
    name ∈ s.names ∧ result = ([], .slot (s.slot name)) ∧ σ' = σ := by
  simp only [compile] at done
  split at done
  · rename_i mem
    exact ⟨List.contains_iff_mem.1 mem, by simpa using Emit.pure_eq_ok.1 done⟩
  · exact absurd done Emit.throw_ne_ok

/-- The code for a sign before an operand: the sign is known what to make of a number,
or there is a line for it. -/
theorem compile_negate (done : (negate e).compile s σ = .ok (result, σ')) :
    ∃ code value σ₁, e.compile s σ = .ok ((code, value), σ₁)
      ∧ ((∃ k, value = .int k ∧ result = (code, .int (-k)) ∧ σ' = σ₁)
        ∨ s.keep (code ++ [value.load .t1,
            line "sub" [Register.t0, Register.zero, Register.t1]]) .t0 σ₁ = .ok (result, σ')) := by
  simp only [compile] at done
  obtain ⟨⟨code, value⟩, σ₁, compiled, done⟩ := Emit.bind_eq_ok.1 done
  refine ⟨code, value, σ₁, compiled, ?_⟩
  cases value with
  | int k => exact .inl ⟨k, rfl, by simpa using Emit.pure_eq_ok.1 done⟩
  | slot n => exact .inr done
  | constant index => exact .inr done

theorem compile_isZero (done : (isZero e).compile s σ = .ok (result, σ')) :
    ∃ code value σ₁, e.compile s σ = .ok ((code, value), σ₁)
      ∧ ((∃ k, value = .int k ∧ result = (code, .int (truth (k == 0))) ∧ σ' = σ₁)
        ∨ s.keep (code ++ [value.load .t1, line "not" [Register.t0, Register.t1]]) .t0 σ₁
            = .ok (result, σ')) := by
  simp only [compile] at done
  obtain ⟨⟨code, value⟩, σ₁, compiled, done⟩ := Emit.bind_eq_ok.1 done
  refine ⟨code, value, σ₁, compiled, ?_⟩
  cases value with
  | int k => exact .inl ⟨k, rfl, by simpa using Emit.pure_eq_ok.1 done⟩
  | slot n => exact .inr done
  | constant index => exact .inr done

theorem compile_binary {op : Operator}
    (done : (binary op left right span).compile s σ = .ok (result, σ')) :
    ∃ code a σ₁ code' b σ₂, left.compile s σ = .ok ((code, a), σ₁)
      ∧ right.compile s σ₁ = .ok ((code', b), σ₂)
      ∧ (op.divides → b ≠ .int 0)
      ∧ ((∃ value, op.fold? a b = some value ∧ result = (code ++ code', value) ∧ σ' = σ₂)
        ∨ s.keep (code ++ code' ++ op.lines a b) .t0 σ₂ = .ok (result, σ')) := by
  simp only [compile] at done
  obtain ⟨⟨code, a⟩, σ₁, first, done⟩ := Emit.bind_eq_ok.1 done
  obtain ⟨⟨code', b⟩, σ₂, second, done⟩ := Emit.bind_eq_ok.1 done
  refine ⟨code, a, σ₁, code', b, σ₂, first, second, ?_⟩
  dsimp only at done
  split at done
  · obtain ⟨_, _, thrown, -⟩ := Emit.bind_eq_ok.1 done
    exact absurd thrown Emit.throw_ne_ok
  · rename_i divides
    refine ⟨fun h eq => divides (by rw [h, eq]; rfl), ?_⟩
    cases folded : op.fold? a b with
    | some value =>
      rw [folded] at done
      exact .inl ⟨value, rfl, by simpa using Emit.pure_eq_ok.1 done⟩
    | none =>
      rw [folded] at done
      exact .inr done

/-- The code of a call: the arguments, and then what calls the host or the function. -/
theorem compile_call {callee : String} {arguments : List Expression}
    (done : (call callee arguments span).compile s σ = .ok (result, σ')) :
    ∃ code values σ₁, s.arity callee span = .ok arguments.length
      ∧ compileAll s arguments σ = .ok ((code, values), σ₁)
      ∧ ((∃ host, Syscall.ofName? callee = some host
            ∧ s.keep (code ++ Scope.hostLines host values) .a0 σ₁ = .ok (result, σ'))
        ∨ (Syscall.ofName? callee = none
            ∧ s.keep (code ++ Scope.callLines callee (numbered σ₁.labels) values) .a0 σ₁.labeled
                = .ok (result, σ'))) := by
  simp only [compile] at done
  obtain ⟨expected, σ₀, known, rest⟩ := Emit.bind_eq_ok.1 done
  obtain ⟨_, arity, eq⟩ := Emit.lift_eq_ok.1 known
  obtain ⟨rfl, rfl⟩ := Prod.mk.inj eq
  by_cases same : arguments.length = expected
  · rw [if_neg (not_not_intro same)] at rest
    obtain ⟨⟨code, values⟩, σ₁, compiled, rest⟩ := Emit.bind_eq_ok.1 rest
    refine ⟨code, values, σ₁, by rw [arity, same], compiled, ?_⟩
    cases known : Syscall.ofName? callee with
    | some host =>
      simp only [known] at rest
      exact .inl ⟨host, rfl, rest⟩
    | none =>
      simp only [known] at rest
      exact .inr ⟨rfl, rest⟩
  · rw [if_pos same] at rest
    obtain ⟨_, _, thrown, -⟩ := Emit.bind_eq_ok.1 rest
    exact absurd thrown Emit.throw_ne_ok

/-- The code of a word from memory: the address, and then the line for it. -/
theorem compile_load {base : Expression} {offset : Int}
    (done : (load base offset span).compile s σ = .ok (result, σ')) :
    fits offset literalBits ∧ ∃ code value σ₁, base.compile s σ = .ok ((code, value), σ₁)
      ∧ s.keep (code ++ [value.load .t1, line "load" [Register.t0, Register.t1, .int offset]]) .t0 σ₁
          = .ok (result, σ') := by
  simp only [compile] at done
  split at done
  · obtain ⟨_, _, thrown, -⟩ := Emit.bind_eq_ok.1 done
    exact absurd thrown Emit.throw_ne_ok
  · rename_i small
    obtain ⟨⟨code, value⟩, σ₁, compiled, kept⟩ := Emit.bind_eq_ok.1 done
    exact ⟨by simpa using small, code, value, σ₁, compiled, kept⟩

/-- What is no expression has no code. -/
theorem compile_broken_ne {before : List Expression} {defect : Defect} {r : (List Line × Value) × Supply} :
    (broken before defect span).compile s σ ≠ .ok r := by
  intro done
  simp only [compile] at done
  obtain ⟨_, _, -, thrown⟩ := Emit.bind_eq_ok.1 done
  exact absurd thrown Emit.throw_ne_ok

end Expression

/-- A function that is known takes as many arguments as there are. -/
theorem Scope.lookup_of_arity {s : Scope} {callee : String} {span : Span} {count : Nat}
    (arity : s.arity callee span = .ok count) (unknown : Syscall.ofName? callee = none) :
    s.arities.lookup callee = some count := by
  unfold Scope.arity at arity
  rw [unknown] at arity
  split at arity
  · rename_i known
    cases known
  · rename_i found
    rw [found, Except.ok.inj arity]
  · cases arity

theorem compileAll_nil {result : List Line × List Value}
    (done : compileAll s [] σ = .ok (result, σ')) : result = ([], []) ∧ σ' = σ := by
  simp only [compileAll] at done
  simpa using Emit.pure_eq_ok.1 done

theorem compileAll_cons {result : List Line × List Value} {e : Expression} {es : List Expression}
    (done : compileAll s (e :: es) σ = .ok (result, σ')) :
    ∃ code value σ₁ rest values, e.compile s σ = .ok ((code, value), σ₁)
      ∧ compileAll s es σ₁ = .ok ((rest, values), σ')
      ∧ result = (code ++ rest, value :: values) := by
  simp only [compileAll] at done
  obtain ⟨⟨code, value⟩, σ₁, first, done⟩ := Emit.bind_eq_ok.1 done
  obtain ⟨⟨rest, values⟩, σ₂, others, done⟩ := Emit.bind_eq_ok.1 done
  obtain ⟨rfl, rfl⟩ := Prod.mk.inj (Emit.pure_eq_ok.1 done)
  exact ⟨code, value, σ₁, rest, values, first, others, rfl⟩

theorem compileAll_length {es : List Expression} {result : List Line × List Value}
    (done : compileAll s es σ = .ok (result, σ')) : result.2.length = es.length := by
  induction es generalizing σ result with
  | nil => rw [(compileAll_nil done).1]; rfl
  | cons e es ih =>
    obtain ⟨_, _, _, _, _, -, others, rfl⟩ := compileAll_cons done
    exact congrArg (· + 1) (ih others)

mutual

/-- Temporaries that are in use stay in use. -/
theorem Expression.within (e : Expression) {σ σ' : Supply} {result : List Line × Value}
    (done : e.compile s σ = .ok (result, σ')) : σ.Within σ' := by
  cases e with
  | integer n span => rw [(Expression.compile_integer done).2]; exact .refl
  | text text =>
    rw [Expression.compile_text] at done
    rw [(Prod.mk.inj (Emit.pure_eq_ok.1 done)).2]
    exact .refl
  | «variable» name span => rw [(Expression.compile_variable done).2.2]; exact .refl
  | negate e =>
    obtain ⟨code, value, σ₁, compiled, ⟨k, -, -, rfl⟩ | kept⟩ := Expression.compile_negate done
    · exact e.within compiled
    · obtain ⟨-, rfl⟩ := Prod.mk.inj (Except.ok.inj kept)
      exact (e.within compiled).trans σ₁.within_kept
  | isZero e =>
    obtain ⟨code, value, σ₁, compiled, ⟨k, -, -, rfl⟩ | kept⟩ := Expression.compile_isZero done
    · exact e.within compiled
    · obtain ⟨-, rfl⟩ := Prod.mk.inj (Except.ok.inj kept)
      exact (e.within compiled).trans σ₁.within_kept
  | binary op left right span =>
    obtain ⟨code, a, σ₁, code', b, σ₂, first, second, -, ⟨k, -, -, rfl⟩ | kept⟩ :=
      Expression.compile_binary done
    · exact (left.within first).trans (right.within second)
    · obtain ⟨-, rfl⟩ := Prod.mk.inj (Except.ok.inj kept)
      exact ((left.within first).trans (right.within second)).trans σ₂.within_kept
  | call callee arguments span =>
    obtain ⟨code, values, σ₁, -, compiled, ⟨host, -, kept⟩ | ⟨-, kept⟩⟩ := Expression.compile_call done
    · obtain ⟨-, rfl⟩ := Prod.mk.inj (Except.ok.inj kept)
      exact (withinAll arguments compiled).trans σ₁.within_kept
    · obtain ⟨-, rfl⟩ := Prod.mk.inj (Except.ok.inj kept)
      exact ((withinAll arguments compiled).trans σ₁.within_labeled).trans σ₁.labeled.within_kept
  | load base offset span =>
    obtain ⟨-, code, value, σ₁, compiled, kept⟩ := Expression.compile_load done
    obtain ⟨-, rfl⟩ := Prod.mk.inj (Except.ok.inj kept)
    exact (base.within compiled).trans σ₁.within_kept
  | broken before defect span => exact absurd done Expression.compile_broken_ne

theorem withinAll (es : List Expression) {σ σ' : Supply} {result : List Line × List Value}
    (done : compileAll s es σ = .ok (result, σ')) : σ.Within σ' := by
  cases es with
  | nil => rw [(compileAll_nil done).2]; exact .refl
  | cons e es =>
    obtain ⟨code, value, σ₁, rest, values, first, others, -⟩ := compileAll_cons done
    exact (e.within first).trans (withinAll es others)

end

/-! ## Statements -/

namespace Statement

variable {code : List Line} {condition e : Expression} {body positive negative : Statement}
  {bodies : List Statement} {target : String}

theorem compile_block (done : (block bodies).compile s σ = .ok (code, σ')) :
    compileBlock s bodies σ.released = .ok (code, σ') := by
  simp only [compile, releaseTemporaries_bind] at done
  exact done

theorem compile_whileLoop (done : (whileLoop condition body).compile s σ = .ok (code, σ')) :
    ∃ start ending test value σ₁ inner, condition.compile s σ.released.labeled.labeled
        = .ok ((test, value), σ₁)
      ∧ body.compile s σ₁ = .ok (inner, σ')
      ∧ code = [place start] ++ test ++ jumpUnless value ending ++ inner
          ++ [line "jumpv" [.label start], place ending]
      ∧ start = numbered σ.labels ∧ ending = numbered (σ.labels + 1) := by
  simp only [compile, releaseTemporaries_bind, freshLabel_bind] at done
  obtain ⟨⟨test, value⟩, σ₁, tested, rest⟩ := Emit.bind_eq_ok.1 done
  obtain ⟨inner, σ₂, compiled, rest⟩ := Emit.bind_eq_ok.1 rest
  obtain ⟨rfl, rfl⟩ := Prod.mk.inj (Emit.pure_eq_ok.1 rest)
  exact ⟨_, _, test, value, σ₁, inner, tested, compiled, rfl, rfl, rfl⟩

theorem compile_ifThen (done : (ifThen condition positive).compile s σ = .ok (code, σ')) :
    ∃ otherwise test value σ₁ inner, condition.compile s σ.released.labeled
        = .ok ((test, value), σ₁)
      ∧ positive.compile s σ₁ = .ok (inner, σ')
      ∧ code = test ++ jumpUnless value otherwise ++ inner ++ [place otherwise]
      ∧ otherwise = numbered σ.labels := by
  simp only [compile, releaseTemporaries_bind, freshLabel_bind] at done
  obtain ⟨⟨test, value⟩, σ₁, tested, rest⟩ := Emit.bind_eq_ok.1 done
  obtain ⟨inner, σ₂, compiled, rest⟩ := Emit.bind_eq_ok.1 rest
  obtain ⟨rfl, rfl⟩ := Prod.mk.inj (Emit.pure_eq_ok.1 rest)
  exact ⟨_, test, value, σ₁, inner, tested, compiled, rfl, rfl⟩

theorem compile_ifElse (done : (ifElse condition positive negative).compile s σ = .ok (code, σ')) :
    ∃ otherwise ending test value σ₁ first σ₂ second,
      condition.compile s σ.released.labeled = .ok ((test, value), σ₁)
      ∧ positive.compile s σ₁ = .ok (first, σ₂)
      ∧ negative.compile s σ₂.labeled = .ok (second, σ')
      ∧ code = test ++ jumpUnless value otherwise ++ first
          ++ [line "jumpv" [.label ending], place otherwise] ++ second ++ [place ending]
      ∧ otherwise = numbered σ.labels ∧ ending = numbered σ₂.labels := by
  simp only [compile, releaseTemporaries_bind, freshLabel_bind] at done
  obtain ⟨⟨test, value⟩, σ₁, tested, rest⟩ := Emit.bind_eq_ok.1 done
  obtain ⟨first, σ₂, compiled, rest⟩ := Emit.bind_eq_ok.1 rest
  rw [freshLabel_bind] at rest
  obtain ⟨second, σ₃, compiled', rest⟩ := Emit.bind_eq_ok.1 rest
  obtain ⟨rfl, rfl⟩ := Prod.mk.inj (Emit.pure_eq_ok.1 rest)
  exact ⟨_, _, test, value, σ₁, first, σ₂, second, tested, compiled, compiled', rfl, rfl, rfl⟩

theorem compile_ret_none (done : (ret none).compile s σ = .ok (code, σ')) :
    code = [Value.load .a0 (.int 0), line "jumpv" [.label s.ending]] ∧ σ' = σ.released := by
  simp only [compile, releaseTemporaries_bind] at done
  simpa using Emit.pure_eq_ok.1 done

theorem compile_ret_some (done : (ret (some e)).compile s σ = .ok (code, σ')) :
    ∃ inner value, e.compile s σ.released = .ok ((inner, value), σ')
      ∧ code = inner ++ [value.load .a0, line "jumpv" [.label s.ending]] := by
  simp only [compile, releaseTemporaries_bind] at done
  obtain ⟨⟨inner, value⟩, σ₁, compiled, rest⟩ := Emit.bind_eq_ok.1 done
  obtain ⟨rfl, rfl⟩ := Prod.mk.inj (Emit.pure_eq_ok.1 rest)
  exact ⟨inner, value, compiled, rfl⟩

theorem compile_assign (done : (assign target e).compile s σ = .ok (code, σ')) :
    ∃ inner value, e.compile s σ.released = .ok ((inner, value), σ')
      ∧ code = inner ++ [value.load .t0, saveTo (s.slot target) .t0] := by
  simp only [compile, releaseTemporaries_bind] at done
  obtain ⟨⟨inner, value⟩, σ₁, compiled, rest⟩ := Emit.bind_eq_ok.1 done
  obtain ⟨rfl, rfl⟩ := Prod.mk.inj (Emit.pure_eq_ok.1 rest)
  exact ⟨inner, value, compiled, rfl⟩

theorem compile_store {base : Expression} {offset : Int} {span : Span}
    (done : (store base offset span e).compile s σ = .ok (code, σ')) :
    fits offset literalBits ∧ ∃ first address σ₁ second value,
      base.compile s σ.released = .ok ((first, address), σ₁)
      ∧ e.compile s σ₁ = .ok ((second, value), σ')
      ∧ code = first ++ second ++ [address.load .t0, value.load .t1,
          line "store" [Register.t1, Register.t0, .int offset]] := by
  simp only [compile, releaseTemporaries_bind] at done
  split at done
  · obtain ⟨_, _, thrown, -⟩ := Emit.bind_eq_ok.1 done
    exact absurd thrown Emit.throw_ne_ok
  · rename_i small
    obtain ⟨⟨first, address⟩, σ₁, compiled, rest⟩ := Emit.bind_eq_ok.1 done
    obtain ⟨⟨second, value⟩, σ₂, compiled', rest⟩ := Emit.bind_eq_ok.1 rest
    obtain ⟨rfl, rfl⟩ := Prod.mk.inj (Emit.pure_eq_ok.1 rest)
    exact ⟨by simpa using small, first, address, σ₁, second, value, compiled, compiled', rfl⟩

/-- What is no statement has no code. -/
theorem compile_broken_ne {before : List Expression} {defect : Defect} {span : Span}
    {r : List Line × Supply} : (broken before defect span).compile s σ ≠ .ok r := by
  intro done
  simp only [compile, releaseTemporaries_bind] at done
  obtain ⟨_, _, -, thrown⟩ := Emit.bind_eq_ok.1 done
  exact absurd thrown Emit.throw_ne_ok

theorem compile_call (done : (call e).compile s σ = .ok (code, σ')) :
    ∃ value, e.compile s σ.released = .ok ((code, value), σ') := by
  simp only [compile, releaseTemporaries_bind] at done
  obtain ⟨⟨inner, value⟩, σ₁, compiled, rest⟩ := Emit.bind_eq_ok.1 done
  obtain ⟨rfl, rfl⟩ := Prod.mk.inj (Emit.pure_eq_ok.1 rest)
  exact ⟨value, compiled⟩

theorem compile_skip (done : skip.compile s σ = .ok (code, σ')) :
    code = [] ∧ σ' = σ.released := by
  rw [compile_empty, releaseTemporaries_bind] at done
  simpa using Emit.pure_eq_ok.1 done

end Statement

theorem compileBlock_nil {code : List Line} (done : compileBlock s [] σ = .ok (code, σ')) :
    code = [] ∧ σ' = σ := by
  simp only [compileBlock] at done
  simpa using Emit.pure_eq_ok.1 done

theorem compileBlock_cons {code : List Line} {b : Statement} {bs : List Statement}
    (done : compileBlock s (b :: bs) σ = .ok (code, σ')) :
    ∃ first σ₁ rest, b.compile s σ = .ok (first, σ₁) ∧ compileBlock s bs σ₁ = .ok (rest, σ')
      ∧ code = first ++ rest := by
  simp only [compileBlock] at done
  obtain ⟨first, σ₁, compiled, rest⟩ := Emit.bind_eq_ok.1 done
  obtain ⟨others, σ₂, compiled', rest⟩ := Emit.bind_eq_ok.1 rest
  obtain ⟨rfl, rfl⟩ := Prod.mk.inj (Emit.pure_eq_ok.1 rest)
  exact ⟨first, σ₁, others, compiled, compiled', rfl⟩

mutual

/-- The most temporaries that were in use do not become fewer. -/
theorem Statement.peak_le (b : Statement) {σ σ' : Supply} {code : List Line}
    (done : b.compile s σ = .ok (code, σ')) : σ.peak ≤ σ'.peak := by
  cases b with
  | block body => exact peak_le_all (σ := σ.released) body (Statement.compile_block done)
  | whileLoop condition body =>
    obtain ⟨_, _, _, _, σ₁, _, tested, compiled, -⟩ := Statement.compile_whileLoop done
    exact Nat.le_trans (condition.within tested).peak (body.peak_le compiled)
  | ifThen condition positive =>
    obtain ⟨_, _, _, σ₁, _, tested, compiled, -⟩ := Statement.compile_ifThen done
    exact Nat.le_trans (condition.within tested).peak (positive.peak_le compiled)
  | ifElse condition positive negative =>
    obtain ⟨_, _, _, _, σ₁, _, σ₂, _, tested, compiled, compiled', -⟩ :=
      Statement.compile_ifElse done
    exact Nat.le_trans (condition.within tested).peak
      (Nat.le_trans (positive.peak_le compiled) (negative.peak_le (σ := σ₂.labeled) compiled'))
  | ret value =>
    cases value with
    | none => exact Nat.le_of_eq (congrArg Supply.peak (Statement.compile_ret_none done).2).symm
    | some e =>
      obtain ⟨_, _, compiled, -⟩ := Statement.compile_ret_some done
      exact (e.within compiled).peak
  | assign target e =>
    obtain ⟨_, _, compiled, -⟩ := Statement.compile_assign done
    exact (e.within compiled).peak
  | store base offset span e =>
    obtain ⟨-, _, _, σ₁, _, _, first, second, -⟩ := Statement.compile_store done
    exact Nat.le_trans (base.within first).peak (e.within second).peak
  | call e =>
    obtain ⟨_, compiled⟩ := Statement.compile_call done
    exact (e.within compiled).peak
  | skip => exact Nat.le_of_eq (congrArg Supply.peak (Statement.compile_skip done).2).symm
  | broken before defect span => exact absurd done Statement.compile_broken_ne

theorem peak_le_all (bs : List Statement) {σ σ' : Supply} {code : List Line}
    (done : compileBlock s bs σ = .ok (code, σ')) : σ.peak ≤ σ'.peak := by
  cases bs with
  | nil => exact Nat.le_of_eq (congrArg Supply.peak (compileBlock_nil done).2).symm
  | cons b bs =>
    obtain ⟨_, σ₁, _, compiled, compiled', -⟩ := compileBlock_cons done
    exact Nat.le_trans (b.peak_le compiled) (peak_le_all bs compiled')

end

/-! ## Functions and programs -/

/-- The slot of a name, given the names that have one. -/
def slotOf (names : List String) (name : String) : Nat := names.idxOf name + 1

/-- The slots of names come before those of the temporaries. -/
theorem slotOf_le {names : List String} {name : String} (mem : name ∈ names) :
    slotOf names name ≤ names.length := List.idxOf_lt_length_of_mem mem

/-- The lines that start a function. -/
def prologue (f : Function) (frame : Nat) : List Line :=
  [place (functionLabel f.name), line "addv" [Register.sp, Register.sp, .int (-frame)], saveTo 0 .ra]
    ++ List.zipWith (fun r name => saveTo (slotOf f.names name) r) Register.arguments f.parameters

/-- The lines that end a function. -/
def epilogue (ending : String) (frame : Nat) : List Line :=
  [Value.load .a0 (.int 0), place ending, Value.load .ra (.slot 0),
    line "addv" [Register.sp, Register.sp, .int frame], line "jump" [Register.ra]]

variable {constants : List String} {arities : List (String × Nat)} {σ σ' : Supply}

theorem Function.compile_eq_ok {f : Function} {code : List Line}
    (done : f.compile constants arities σ = .ok (code, σ')) :
    ∃ body inner, f.body = some body
      ∧ body.compile ⟨constants, arities, f.names, numbered σ.labels⟩
          { σ.labeled with temporaries := 0, peak := 0 } = .ok (inner, σ')
      ∧ code = prologue f (4 * (1 + f.names.length + σ'.peak)) ++ inner
          ++ epilogue (numbered σ.labels) (4 * (1 + f.names.length + σ'.peak)) := by
  unfold Function.compile at done
  cases found : f.body with
  | none =>
    rw [found] at done
    exact absurd done Emit.throw_ne_ok
  | some body =>
    simp only [found, freshLabel_bind] at done
    obtain ⟨_, σ₁, modified, done⟩ := Emit.bind_eq_ok.1 done
    obtain ⟨-, rfl⟩ := Prod.mk.inj (Except.ok.inj modified)
    obtain ⟨inner, σ₂, compiled, done⟩ := Emit.bind_eq_ok.1 done
    obtain ⟨supply, σ₃, got, done⟩ := Emit.bind_eq_ok.1 done
    obtain ⟨rfl, rfl⟩ := Prod.mk.inj (Except.ok.inj got)
    obtain ⟨rfl, rfl⟩ := Prod.mk.inj (Emit.pure_eq_ok.1 done)
    exact ⟨body, inner, rfl, compiled, rfl⟩

theorem compileFunctions_nil {code : List Line}
    (done : compileFunctions constants arities [] σ = .ok (code, σ')) : code = [] ∧ σ' = σ := by
  simp only [compileFunctions] at done
  simpa using Emit.pure_eq_ok.1 done

theorem compileFunctions_cons {code : List Line} {f : Function} {fs : List Function}
    (done : compileFunctions constants arities (f :: fs) σ = .ok (code, σ')) :
    ∃ first σ₁ rest, f.compile constants arities σ = .ok (first, σ₁)
      ∧ compileFunctions constants arities fs σ₁ = .ok (rest, σ') ∧ code = first ++ rest := by
  simp only [compileFunctions] at done
  obtain ⟨first, σ₁, compiled, done⟩ := Emit.bind_eq_ok.1 done
  obtain ⟨rest, σ₂, others, done⟩ := Emit.bind_eq_ok.1 done
  obtain ⟨rfl, rfl⟩ := Prod.mk.inj (Emit.pure_eq_ok.1 done)
  exact ⟨first, σ₁, rest, compiled, others, rfl⟩

theorem compileFunctions_mem {fs : List Function} {code : List Line}
    (done : compileFunctions constants arities fs σ = .ok (code, σ')) {f : Function} (mem : f ∈ fs) :
    ∃ before inner after σ₁ σ₂, f.compile constants arities σ₁ = .ok (inner, σ₂)
      ∧ code = before ++ inner ++ after := by
  induction fs generalizing σ code with
  | nil => cases mem
  | cons g fs ih =>
    obtain ⟨first, σ₁, rest, compiled, others, rfl⟩ := compileFunctions_cons done
    rcases List.mem_cons.1 mem with rfl | mem
    · exact ⟨[], first, rest, _, _, compiled, rfl⟩
    · obtain ⟨before, inner, after, σ₃, σ₄, compiled', rfl⟩ := ih others mem
      exact ⟨first ++ before, inner, after, σ₃, σ₄, compiled', by simp⟩

/-- What is known of a name stays known. -/
theorem lookup_of_aritiesFrom {known : List (String × Nat)} {fs : List Function}
    (done : aritiesFrom known fs = .ok arities) {name : String} {count : Nat}
    (there : known.lookup name = some count) : arities.lookup name = some count := by
  induction fs generalizing known with
  | nil => rwa [← Except.ok.inj done]
  | cons f fs ih =>
    simp only [aritiesFrom] at done
    split at done
    · cases done
    split at done
    · cases done
    exact ih done (by rw [List.lookup_append, there, Option.some_or])

/-- A name that is known is that of a function, which is the one that is called. -/
theorem find?_of_aritiesFrom {known : List (String × Nat)} {fs : List Function}
    (done : aritiesFrom known fs = .ok arities) {name : String} {count : Nat}
    (fresh : known.lookup name = none) (there : arities.lookup name = some count) :
    ∃ f, fs.find? (·.name == name) = some f ∧ f.name = name ∧ f.parameters.length = count
      ∧ count ≤ maxParameters := by
  induction fs generalizing known with
  | nil =>
    rw [← Except.ok.inj done, fresh] at there
    cases there
  | cons f fs ih =>
    simp only [aritiesFrom] at done
    split at done
    · cases done
    rename_i few
    split at done
    · cases done
    by_cases same : f.name = name
    · have added : (known ++ [(f.name, f.parameters.length)]).lookup name
          = some f.parameters.length := by
        rw [List.lookup_append, fresh, same]
        simp
      have found := lookup_of_aritiesFrom done added
      rw [there] at found
      obtain rfl := Option.some.inj found
      exact ⟨f, by simp [same], same, rfl, Nat.not_lt.1 few⟩
    · obtain ⟨g, found, rest⟩ := ih done (by
        rw [List.lookup_append, fresh]
        simp [List.lookup_cons, beq_eq_false_iff_ne.2 (Ne.symm same)])
      exact ⟨g, by rw [List.find?_cons_of_neg (by simpa using same), found], rest⟩

/-- No function has too many parameters. -/
theorem few_of_aritiesFrom {known : List (String × Nat)} {fs : List Function}
    (done : aritiesFrom known fs = .ok arities) : ∀ f ∈ fs, f.parameters.length ≤ maxParameters := by
  induction fs generalizing known with
  | nil => nofun
  | cons f fs ih =>
    simp only [aritiesFrom] at done
    split at done
    · cases done
    rename_i few
    split at done
    · cases done
    exact List.forall_mem_cons.2 ⟨Nat.not_lt.1 few, ih done⟩

/-- No two functions have the same name, nor is it one that was known before. -/
theorem nodup_of_aritiesFrom {known : List (String × Nat)} {fs : List Function}
    (done : aritiesFrom known fs = .ok arities) :
    (fs.map Function.name).Nodup ∧ ∀ f ∈ fs, known.lookup f.name = none := by
  induction fs generalizing known with
  | nil => exact ⟨List.nodup_nil, nofun⟩
  | cons f fs ih =>
    simp only [aritiesFrom] at done
    split at done
    · cases done
    split at done
    · cases done
    rename_i fresh
    obtain ⟨distinct, others⟩ := ih done
    have unknown : known.lookup f.name = none := by
      cases found : known.lookup f.name with
      | none => rfl
      | some count => simp [found] at fresh
    refine ⟨List.nodup_cons.2 ⟨?_, distinct⟩, List.forall_mem_cons.2 ⟨unknown, fun g mem => ?_⟩⟩
    · rw [List.mem_map]
      rintro ⟨g, mem, same⟩
      have := others g mem
      simp [List.lookup_append, unknown, same] at this
    · have := others g mem
      rw [List.lookup_append, Option.or_eq_none_iff] at this
      exact this.1

theorem Program.compile_eq_ok {p : Program} {l : Listing} (done : p.compile = .ok l) :
    ∃ arities code σ', p.constants = .ok l.constants ∧ aritiesFrom [] p.functions = .ok arities
      ∧ (arities.lookup "main").isSome
      ∧ compileFunctions l.constants arities p.functions { labels := 1 } = .ok (code, σ')
      ∧ l.lines = startLines (numbered 0) ++ code ++ [line "exitv" [.int 0]] := by
  unfold Program.compile at done
  obtain ⟨constants, constant, done⟩ := Except.bind_eq_ok.1 done
  obtain ⟨arities, known, done⟩ := Except.bind_eq_ok.1 done
  have there : (arities.lookup "main").isSome := by
    cases found : arities.lookup "main" with
    | some count => rfl
    | none =>
      simp only [found, Option.isNone_none, ↓reduceIte] at done
      obtain ⟨_, thrown, -⟩ := Except.bind_eq_ok.1 done
      cases thrown
  simp only [Option.isNone_eq_false_iff.2 there] at done
  obtain ⟨lines, emitted, done⟩ := Except.bind_eq_ok.1 done
  obtain rfl := Except.pure_eq_ok.1 done
  obtain ⟨⟨lines, σ'⟩, run, rfl⟩ := Except.map_eq_ok.1 emitted
  rw [freshLabel_bind] at run
  obtain ⟨code, σ₂, compiled, run⟩ := Emit.bind_eq_ok.1 run
  obtain ⟨rfl, rfl⟩ := Prod.mk.inj (Emit.pure_eq_ok.1 run)
  exact ⟨arities, code, _, constant, known, there, compiled, rfl⟩

end Polyglot.B
