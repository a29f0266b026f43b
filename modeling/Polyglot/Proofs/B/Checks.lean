import Mathlib.Data.Set.List
import Polyglot.Proofs.B.Constants
import Polyglot.Proofs.B.Fidelity
import Polyglot.Proofs.B.Validity

/-!
# What the compiler checks

The compiler checks each expression and each statement for itself: whether its number is small enough
(`Expression.Measured`), and whether what it refers to is there and is no divisor that is known to be
zero (`Expression.Allowed`). Nothing is checked that depends on the code so far, so code for a function
is found just if everything in it passes (`Expression.exists_compile_iff`, `Statement.exists_compile_iff`).
With what is asked of the functions taken together, this tells which programs are compiled
(`Program.exists_compile_iff`).
-/

namespace Polyglot.B

open Polyglot.Source
open Polyglot.Assembly (Line Listing)
open Polyglot.Machine (fits Syscall)

/-- Whether a number is not too large for an instruction. -/
def IsSmall (n : Nat) : Prop := n ≤ 32767

theorem fits_iff_isSmall {n : Int} : fits n literalBits ↔ IsSmall n.natAbs := by
  rw [fits_literalBits_iff, IsSmall]
  omega

variable {s : Scope} {σ σ' : Supply}

/-- One step after another gives something if each does. -/
theorem Emit.exists_bind {α β : Type} {x : Emit α} {f : α → Emit β} {a : α} (first : x σ = .ok (a, σ'))
    (second : ∃ r, f a σ' = .ok r) : ∃ r, (x >>= f) σ = .ok r := by
  obtain ⟨r, done⟩ := second
  exact ⟨r, Emit.bind_eq_ok.2 ⟨a, σ', first, done⟩⟩

/-! ## Expressions -/

/-- How many arguments a call takes, if there is something to be called. -/
def arity? (arities : List (String × Nat)) (callee : String) : Option Nat :=
  if (Syscall.ofName? callee).isSome then some 1 else arities.lookup callee

theorem Scope.arity_eq_ok {callee : String} {span : Span} {n : Nat} :
    s.arity callee span = .ok n ↔ arity? s.arities callee = some n := by
  rw [Scope.arity, arity?]
  cases Syscall.ofName? callee with
  | some call => exact ⟨fun h => congrArg some (Except.ok.inj h), fun h => congrArg _ (Option.some.inj h)⟩
  | none =>
    cases s.arities.lookup callee with
    | some count => exact ⟨fun h => congrArg some (Except.ok.inj h), fun h => congrArg _ (Option.some.inj h)⟩
    | none => exact ⟨fun h => (by cases h), fun h => (by cases h)⟩

namespace Expression

variable {e : Expression} {code : List Line} {value : Value}

/-- Whether what an expression itself refers to is there, with as many parameters as it should have, and
whether it does not divide by what is known to be zero. -/
def Allowed (names : List String) (arities : List (String × Nat)) : Expression → Prop
  | .variable name _ => name ∈ names
  | .binary op _ right _ => op.divides → right.constant? ≠ some 0
  | .call callee arguments _ => arity? arities callee = some arguments.length
  | .integer .. | .text _ | .negate _ | .isZero _ | .load .. | .broken .. => True

/-- Whether an expression itself passes the checks. -/
structure Passes (s : Scope) (e : Expression) : Prop where
  /-- Its number is small enough. -/
  measured : e.Measured IsSmall
  /-- It refers to what is there. -/
  allowed : e.Allowed s.names s.arities

/-- What has code passes the checks. -/
theorem passes_of_compile (done : e.compile s σ = .ok ((code, value), σ')) : e.Passes s := by
  cases e with
  | integer n span =>
    rw [Expression.compile] at done
    split at done
    · next small => exact ⟨fits_iff_isSmall.1 small, trivial⟩
    · exact absurd done Emit.throw_ne_ok
  | text | negate | isZero => exact ⟨trivial, trivial⟩
  | «variable» name span => exact ⟨trivial, (compile_variable done).1⟩
  | binary op left right span =>
    obtain ⟨code₁, a, σ₁, code₂, b, σ₂, -, compiled, nonzero, -⟩ := compile_binary done
    refine ⟨trivial, fun divides zero => nonzero divides ?_⟩
    have known := (known?_of_compile compiled).1
    rw [zero] at known
    cases b with
    | int c => rw [Option.some.inj known]
    | slot | constant => cases known
  | call callee arguments span =>
    obtain ⟨_, _, _, arity, -⟩ := compile_call done
    exact ⟨trivial, Scope.arity_eq_ok.1 arity⟩
  | load base offset span => exact ⟨fits_iff_isSmall.1 (compile_load done).1, trivial⟩
  | broken => exact absurd done compile_broken_ne

end Expression

/-- There is code for expressions if there is code for each of them. -/
theorem exists_compileAll {es : List Expression} (each : ∀ e ∈ es, ∀ σ, ∃ r, e.compile s σ = .ok r)
    (σ : Supply) : ∃ r, compileAll s es σ = .ok r := by
  induction es generalizing σ with
  | nil =>
    rw [compileAll]
    exact ⟨_, rfl⟩
  | cons e es ih =>
    obtain ⟨here, later⟩ := List.forall_mem_cons.1 each
    obtain ⟨⟨_, σ₁⟩, first⟩ := here σ
    obtain ⟨_, others⟩ := ih later σ₁
    rw [compileAll]
    exact Emit.exists_bind first (Emit.exists_bind others ⟨_, rfl⟩)

namespace Expression

variable {e : Expression}

/-- There is code for what passes the checks, if there is code for its operands. -/
theorem exists_compile_of_passes (passes : e.Passes s)
    (below : ∀ o ∈ e.operands, ∀ σ, ∃ r, o.compile s σ = .ok r) (σ : Supply) :
    ∃ r, e.compile s σ = .ok r := by
  obtain ⟨measured, allowed⟩ := passes
  cases e with
  | integer n span =>
    rw [Expression.compile, if_pos (fits_iff_isSmall.2 measured)]
    exact ⟨_, rfl⟩
  | text text =>
    rw [compile_text]
    exact ⟨_, rfl⟩
  | «variable» name span =>
    rw [Expression.compile, if_pos (List.contains_iff_mem.2 allowed)]
    exact ⟨_, rfl⟩
  | negate operand | isZero operand =>
    obtain ⟨⟨⟨code, value⟩, σ₁⟩, compiled⟩ := below operand List.mem_cons_self σ
    rw [Expression.compile]
    refine Emit.exists_bind compiled ?_
    cases value <;> exact ⟨_, rfl⟩
  | binary op left right span =>
    obtain ⟨⟨⟨code, a⟩, σ₁⟩, first⟩ := below left List.mem_cons_self σ
    obtain ⟨⟨⟨code', b⟩, σ₂⟩, second⟩ := below right (List.mem_cons_of_mem _ List.mem_cons_self) σ₁
    -- the compiler knows the divisor just if it is constant, and then it is not zero
    have nonzero : ¬ (op.divides && b == .int 0) := fun zero => by
      obtain ⟨divides, is⟩ := Bool.and_eq_true_iff.1 zero
      obtain rfl : b = .int 0 := eq_of_beq is
      exact allowed divides (known?_of_compile second).1.symm
    rw [Expression.compile]
    refine Emit.exists_bind first (Emit.exists_bind second ?_)
    dsimp only
    rw [if_neg nonzero]
    cases op.fold? a b <;> exact ⟨_, rfl⟩
  | call callee arguments span =>
    obtain ⟨⟨_, σ₁⟩, compiled⟩ := exists_compileAll below σ
    rw [Expression.compile]
    refine Emit.exists_bind (Emit.lift_eq_ok.2 ⟨_, Scope.arity_eq_ok.2 allowed, rfl⟩) ?_
    dsimp only
    rw [if_neg (not_not_intro rfl)]
    refine Emit.exists_bind compiled ?_
    cases Syscall.ofName? callee <;> exact ⟨_, rfl⟩
  | load base offset span =>
    obtain ⟨⟨_, σ₁⟩, compiled⟩ := below base List.mem_cons_self σ
    have small : ¬ (!fits offset literalBits) = true := by
      rw [fits_iff_isSmall.2 measured]
      exact Bool.false_ne_true
    rw [Expression.compile]
    dsimp only
    rw [if_neg small]
    exact Emit.exists_bind compiled ⟨_, rfl⟩
  | broken => exact measured.elim

/-- **There is code for an expression** just if everything in it passes the checks. -/
theorem exists_compile_iff : (∃ r, e.compile s σ = .ok r)
    ↔ e.Fine IsSmall ∧ ∀ inner : Expression, inner.Inside e → inner.Allowed s.names s.arities := by
  constructor
  · rintro ⟨⟨⟨code, value⟩, σ'⟩, done⟩
    have passes (inner : Expression) (inside : inner.Inside e) : inner.Passes s := by
      obtain ⟨σ₁, own, value', σ₂, compiled, -⟩ := inside.exists_code done
      exact passes_of_compile compiled
    exact ⟨fun inner inside => (passes inner inside).measured,
      fun inner inside => (passes inner inside).allowed⟩
  · rintro ⟨fine, allowed⟩
    induction e using Expression.induct generalizing σ with
    | step e ih =>
      exact exists_compile_of_passes ⟨fine e .refl, allowed e .refl⟩
        (fun o mem τ => ih o mem (fun inner inside => fine inner (.operand inside mem))
          fun inner inside => allowed inner (.operand inside mem)) σ

end Expression

/-! ## Statements -/

namespace Statement

variable {b : Statement}

/-- Whether an expression is somewhere in a statement. -/
def Has (b : Statement) (e : Expression) : Prop :=
  ∃ inner : Statement, inner.Inside b ∧ ∃ o ∈ inner.operands, e.Inside o

/-- The offset of what has code is small enough. -/
theorem measured_of_compile {code : List Line} (done : b.compile s σ = .ok (code, σ')) :
    b.Measured IsSmall := by
  cases b with
  | store base offset span e => exact fits_iff_isSmall.1 (compile_store done).1
  | broken => exact absurd done compile_broken_ne
  | block | whileLoop | ifThen | ifElse | ret | assign | call | skip => trivial

end Statement

/-- There is code for statements if there is code for each of them. -/
theorem exists_compileBlock {bs : List Statement} (each : ∀ b ∈ bs, ∀ σ, ∃ r, b.compile s σ = .ok r)
    (σ : Supply) : ∃ r, compileBlock s bs σ = .ok r := by
  induction bs generalizing σ with
  | nil =>
    rw [compileBlock]
    exact ⟨_, rfl⟩
  | cons b bs ih =>
    obtain ⟨here, later⟩ := List.forall_mem_cons.1 each
    obtain ⟨⟨_, σ₁⟩, first⟩ := here σ
    obtain ⟨_, others⟩ := ih later σ₁
    rw [compileBlock]
    exact Emit.exists_bind first (Emit.exists_bind others ⟨_, rfl⟩)

namespace Statement

variable {b : Statement}

/-- There is code for a statement whose offset is small enough, if there is code for its operands and
its parts. -/
theorem exists_compile_of_measured (measured : b.Measured IsSmall)
    (values : ∀ o ∈ b.operands, ∀ σ, ∃ r, o.compile s σ = .ok r)
    (below : ∀ part ∈ b.parts, ∀ σ, ∃ r, part.compile s σ = .ok r) (σ : Supply) :
    ∃ r, b.compile s σ = .ok r := by
  cases b with
  | block body =>
    rw [Statement.compile, releaseTemporaries_bind]
    exact exists_compileBlock below _
  | whileLoop condition body =>
    obtain ⟨⟨_, σ₁⟩, test⟩ := values condition List.mem_cons_self σ.released.labeled.labeled
    obtain ⟨_, inner⟩ := below body List.mem_cons_self σ₁
    rw [Statement.compile, releaseTemporaries_bind, freshLabel_bind, freshLabel_bind]
    exact Emit.exists_bind test (Emit.exists_bind inner ⟨_, rfl⟩)
  | ifThen condition positive =>
    obtain ⟨⟨_, σ₁⟩, test⟩ := values condition List.mem_cons_self σ.released.labeled
    obtain ⟨_, inner⟩ := below positive List.mem_cons_self σ₁
    rw [Statement.compile, releaseTemporaries_bind, freshLabel_bind]
    exact Emit.exists_bind test (Emit.exists_bind inner ⟨_, rfl⟩)
  | ifElse condition positive negative =>
    obtain ⟨⟨_, σ₁⟩, test⟩ := values condition List.mem_cons_self σ.released.labeled
    obtain ⟨⟨_, σ₂⟩, first⟩ := below positive List.mem_cons_self σ₁
    obtain ⟨_, second⟩ := below negative (List.mem_cons_of_mem _ List.mem_cons_self) σ₂.labeled
    rw [Statement.compile, releaseTemporaries_bind, freshLabel_bind]
    refine Emit.exists_bind test (Emit.exists_bind first ?_)
    rw [freshLabel_bind]
    exact Emit.exists_bind second ⟨_, rfl⟩
  | ret value =>
    cases value with
    | none =>
      rw [Statement.compile, releaseTemporaries_bind]
      exact ⟨_, rfl⟩
    | some e =>
      obtain ⟨_, inner⟩ := values e List.mem_cons_self σ.released
      rw [Statement.compile, releaseTemporaries_bind]
      exact Emit.exists_bind inner ⟨_, rfl⟩
  | assign target e | call e =>
    obtain ⟨_, inner⟩ := values e List.mem_cons_self σ.released
    rw [Statement.compile, releaseTemporaries_bind]
    exact Emit.exists_bind inner ⟨_, rfl⟩
  | store base offset span e =>
    obtain ⟨⟨_, σ₁⟩, first⟩ := values base List.mem_cons_self σ.released
    obtain ⟨_, second⟩ := values e (List.mem_cons_of_mem _ List.mem_cons_self) σ₁
    -- the offset is all that a statement itself is rejected for
    have small : ¬ (!fits offset literalBits) = true := by
      rw [fits_iff_isSmall.2 measured]
      exact Bool.false_ne_true
    rw [Statement.compile, releaseTemporaries_bind]
    dsimp only
    rw [if_neg small]
    exact Emit.exists_bind first (Emit.exists_bind second ⟨_, rfl⟩)
  | skip =>
    rw [compile_empty, releaseTemporaries_bind]
    exact ⟨_, rfl⟩
  | broken => exact measured.elim

/-- **There is code for a statement** just if everything in it passes the checks. -/
theorem exists_compile_iff : (∃ r, b.compile s σ = .ok r)
    ↔ b.Fine IsSmall ∧ ∀ e, b.Has e → e.Allowed s.names s.arities := by
  constructor
  · rintro ⟨⟨code, σ'⟩, done⟩
    have operand {inner : Statement} (inside : inner.Inside b) {o : Expression} (mem : o ∈ inner.operands) :
        o.Fine IsSmall ∧ ∀ e : Expression, e.Inside o → e.Allowed s.names s.arities := by
      obtain ⟨σ₁, own, σ₂, compiled, -⟩ := inside.exists_code done
      obtain ⟨σ₃, own', value, σ₄, compiled', -⟩ := exists_code_of_mem_operands compiled mem
      exact Expression.exists_compile_iff.1 ⟨_, compiled'⟩
    constructor
    · intro inner inside
      obtain ⟨σ₁, own, σ₂, compiled, -⟩ := inside.exists_code done
      exact ⟨measured_of_compile compiled, fun o mem => (operand inside mem).1⟩
    · rintro e ⟨inner, inside, o, mem, among⟩
      exact (operand inside mem).2 e among
  · rintro ⟨fine, allowed⟩
    induction b using Statement.induct generalizing σ with
    | step b ih =>
      obtain ⟨⟨measured, values⟩, below⟩ := fine_iff.1 fine
      refine exists_compile_of_measured measured (fun o mem τ => ?_) (fun part mem τ => ?_) σ
      · exact Expression.exists_compile_iff.2
          ⟨values o mem, fun e inside => allowed e ⟨b, .refl, o, mem, inside⟩⟩
      · refine ih part mem (below part mem) ?_
        rintro e ⟨inner, inside, has⟩
        exact allowed e ⟨inner, .part inside mem, has⟩

end Statement

/-! ## Functions -/

variable {constants : List String} {arities : List (String × Nat)}

/-- Whether an expression is somewhere in a function. -/
def Function.Has (f : Function) (e : Expression) : Prop := ∃ body, f.body = some body ∧ body.Has e

/-- There is code for a function just if everything in it passes the checks. -/
theorem Function.exists_compile_iff {f : Function} : (∃ r, f.compile constants arities σ = .ok r)
    ↔ f.Fine IsSmall ∧ ∀ e, f.Has e → e.Allowed f.names arities := by
  constructor
  · rintro ⟨⟨code, σ'⟩, done⟩
    obtain ⟨body, inner, found, compiled, -⟩ := Function.compile_eq_ok done
    obtain ⟨fine, allowed⟩ := Statement.exists_compile_iff.1 ⟨_, compiled⟩
    refine ⟨⟨body, found, fine⟩, ?_⟩
    rintro e ⟨body', found', has⟩
    obtain rfl := Option.some.inj (found.symm.trans found')
    exact allowed e has
  · rintro ⟨⟨body, found, fine⟩, allowed⟩
    obtain ⟨_, compiled⟩ := Statement.exists_compile_iff
      (s := ⟨constants, arities, f.names, numbered σ.labels⟩)
      (σ := { σ.labeled with temporaries := 0, peak := 0 }) |>.2
        ⟨fine, fun e has => allowed e ⟨body, found, has⟩⟩
    rw [Function.compile, found]
    dsimp only
    rw [freshLabel_bind]
    refine Emit.exists_bind rfl (Emit.exists_bind compiled ?_)
    exact ⟨_, rfl⟩

/-- There is code for functions just if there is code for each of them. -/
theorem exists_compileFunctions_iff {fs : List Function} :
    (∃ r, compileFunctions constants arities fs σ = .ok r)
      ↔ ∀ f ∈ fs, f.Fine IsSmall ∧ ∀ e, f.Has e → e.Allowed f.names arities := by
  constructor
  · rintro ⟨⟨code, σ'⟩, done⟩ f mem
    obtain ⟨_, _, _, σ₁, σ₂, compiled, -⟩ := compileFunctions_mem done mem
    exact Function.exists_compile_iff.1 ⟨_, compiled⟩
  · intro each
    induction fs generalizing σ with
    | nil =>
      rw [compileFunctions]
      exact ⟨_, rfl⟩
    | cons f fs ih =>
      obtain ⟨here, later⟩ := List.forall_mem_cons.1 each
      obtain ⟨⟨_, σ₁⟩, first⟩ := Function.exists_compile_iff (σ := σ).2 here
      obtain ⟨_, others⟩ := ih later (σ := σ₁)
      rw [compileFunctions]
      exact Emit.exists_bind first (Emit.exists_bind others ⟨_, rfl⟩)

/-- The functions are known by their names if the names are distinct and none is that of a call to the
host, and if none has too many parameters. -/
theorem aritiesFrom_eq_ok {known : List (String × Nat)} {fs : List Function} :
    aritiesFrom known fs = .ok arities ↔ arities = known ++ fs.map (fun f => (f.name, f.parameters.length))
      ∧ (∀ f ∈ fs, f.parameters.length ≤ maxParameters ∧ Syscall.ofName? f.name = none
        ∧ known.lookup f.name = none)
      ∧ (fs.map Function.name).Nodup := by
  induction fs generalizing known with
  | nil =>
    rw [aritiesFrom, Except.ok.injEq, eq_comm]
    simp
  | cons f fs ih =>
    -- a name is free behind the function if it was free and is not the function's own
    have added (g : Function) : (known ++ [(f.name, f.parameters.length)]).lookup g.name = none
        ↔ known.lookup g.name = none ∧ g.name ≠ f.name := by
      rw [List.lookup_append, Option.or_eq_none_iff, List.lookup_cons]
      cases same : g.name == f.name <;> simp_all
    rw [List.map_cons, List.map_cons, List.nodup_cons, List.forall_mem_cons, List.mem_map, aritiesFrom]
    split
    · next many => exact ⟨fun h => (by cases h), fun h => absurd h.2.1.1.1 (Nat.not_le.2 many)⟩
    · next few =>
      split
      · next taken =>
        refine ⟨fun h => (by cases h), fun h => ?_⟩
        rw [h.2.1.1.2.1, h.2.1.1.2.2] at taken
        cases taken
      · next free =>
        obtain ⟨host, fresh⟩ : Syscall.ofName? f.name = none ∧ known.lookup f.name = none := by
          simpa only [Bool.or_eq_true, not_or, Option.not_isSome_iff_eq_none] using free
        rw [ih, List.append_assoc, List.singleton_append]
        simp only [added]
        constructor
        · rintro ⟨rfl, each, distinct⟩
          refine ⟨rfl, ⟨⟨Nat.not_lt.1 few, host, fresh⟩, fun g mem => ?_⟩, ?_, distinct⟩
          · obtain ⟨few, host, fresh, -⟩ := each g mem
            exact ⟨few, host, fresh⟩
          · rintro ⟨g, mem, same⟩
            exact (each g mem).2.2.2 same
        · rintro ⟨rfl, ⟨-, each⟩, other, distinct⟩
          refine ⟨rfl, fun g mem => ?_, distinct⟩
          obtain ⟨few, host, fresh⟩ := each g mem
          exact ⟨few, host, fresh, fun same => other ⟨g, mem, same⟩⟩

/-- A function is found by its name. -/
theorem lookup_map_eq_some {fs : List Function} (distinct : (fs.map Function.name).Nodup) {name : String}
    {n : Nat} : (fs.map fun f => (f.name, f.parameters.length)).lookup name = some n
      ↔ ∃ f ∈ fs, f.name = name ∧ n = f.parameters.length := by
  induction fs with
  | nil => simp
  | cons f fs ih =>
    rw [List.map_cons, List.nodup_cons, List.mem_map] at distinct
    rw [List.map_cons, List.lookup_cons]
    cases same : name == f.name with
    | true =>
      obtain rfl := eq_of_beq same
      dsimp only
      constructor
      · rintro found
        exact ⟨f, List.mem_cons_self, rfl, (Option.some.inj found).symm⟩
      · rintro ⟨g, mem, named, rfl⟩
        rcases List.mem_cons.1 mem with rfl | mem
        · rfl
        · exact absurd ⟨g, mem, named⟩ distinct.1
    | false =>
      dsimp only
      rw [ih distinct.2]
      constructor
      · rintro ⟨g, mem, rest⟩
        exact ⟨g, List.mem_cons_of_mem _ mem, rest⟩
      · rintro ⟨g, mem, rfl, rest⟩
        rcases List.mem_cons.1 mem with rfl | mem
        · rw [beq_self_eq_true] at same
          cases same
        · exact ⟨g, mem, rfl, rest⟩

/-! ## Programs -/

/-- Whether the functions of a program go together: they can be told apart, and all that is referred to
is there. -/
structure Program.Coherent (p : Program) : Prop where
  /-- No function is named like a call to the host. -/
  hosts : ∀ f ∈ p.functions, Syscall.ofName? f.name = none
  /-- No function is named like another one. -/
  distinct : (p.functions.map Function.name).Nodup
  /-- No function has more than six parameters. -/
  few : ∀ f ∈ p.functions, f.parameters.length ≤ 6
  /-- There is a function to start with. -/
  main : ∃ f ∈ p.functions, f.name = "main"
  /-- What is read in a function is a parameter, or is assigned somewhere in it. -/
  reads : ∀ f ∈ p.functions, ∀ name span, f.Has (.variable name span) →
    name ∈ f.parameters ∨ f.Assigns name
  /-- What is called is the host, with one argument, or a function with as many as it has parameters. -/
  calls : ∀ f ∈ p.functions, ∀ callee arguments span, f.Has (.call callee arguments span) →
    ((Syscall.ofName? callee).isSome ∧ arguments.length = 1)
      ∨ ∃ g ∈ p.functions, g.name = callee ∧ arguments.length = g.parameters.length
  /-- Nothing is divided by what is known to be zero. -/
  divisors : ∀ f ∈ p.functions, ∀ op left right span, f.Has (.binary op left right span) → op.divides →
    right.constant? ≠ some 0

namespace Program

variable {p : Program}

/-- The texts are collected just if all of them have values. -/
theorem exists_constants_iff :
    (∃ constants, p.constants = .ok constants) ↔ ∀ x ∈ p.texts, ∃ text, x = .ok text := by
  constructor
  · rintro ⟨constants, has⟩ x mem
    obtain ⟨texts, eq, -⟩ := exists_of_constants has
    rw [eq] at mem
    obtain ⟨text, -, rfl⟩ := List.mem_map.1 mem
    exact ⟨text, rfl⟩
  · intro each
    obtain ⟨texts, eq⟩ : p.texts ∈ Set.range (List.map Except.ok) := by
      rw [Set.range_list_map]
      exact fun x mem => (each x mem).imp fun _ is => is.symm
    refine ⟨texts.eraseDups, ?_⟩
    rw [constants, Except.mapError_eq_ok, Except.map_eq_ok]
    exact ⟨texts, Except.mapM_id_eq_ok.2 eq.symm, rfl⟩

/-- A program is compiled just if its texts have values, the functions are known by their names and
include one to start with, and there is code for each of them. -/
theorem exists_compile_iff_exists_code : (∃ l, p.compile = .ok l)
    ↔ ∃ constants arities, p.constants = .ok constants ∧ aritiesFrom [] p.functions = .ok arities
      ∧ (arities.lookup "main").isSome
      ∧ ∃ r, compileFunctions constants arities p.functions { labels := 1 } = .ok r := by
  constructor
  · rintro ⟨l, done⟩
    obtain ⟨arities, code, σ', constants, known, main, compiled, -⟩ := compile_eq_ok done
    exact ⟨_, arities, constants, known, main, _, compiled⟩
  · rintro ⟨constants, arities, texts, known, main, ⟨⟨code, σ'⟩, compiled⟩⟩
    obtain ⟨r, run⟩ : ∃ r, (do
        let back ← freshLabel
        let code ← compileFunctions constants arities p.functions
        return startLines back ++ code ++ [line "exitv" [.int 0]] : Emit (List Line)) {} = .ok r := by
      rw [freshLabel_bind]
      exact Emit.exists_bind compiled ⟨_, rfl⟩
    refine ⟨{ constants, lines := r.1 }, ?_⟩
    rw [compile, texts]
    refine Except.bind_eq_ok.2 ⟨_, rfl, Except.bind_eq_ok.2 ⟨_, known, ?_⟩⟩
    simp only [Option.isNone_eq_false_iff.2 main]
    exact Except.bind_eq_ok.2 ⟨r.1, Except.map_eq_ok.2 ⟨r, run, rfl⟩, rfl⟩

/-- **The checks of the compiler are exact**, as far as the names that are said to be assigned in functions
are. -/
theorem exists_compile_iff (named : ∀ f ∈ p.functions, ∀ x, x ∈ f.assigned ↔ f.Assigns x) :
    (∃ l, p.compile = .ok l)
    ↔ (∀ x ∈ p.texts, ∃ text, x = .ok text) ∧ (∀ f ∈ p.functions, f.Fine IsSmall) ∧ p.Coherent := by
  rw [exists_compile_iff_exists_code]
  constructor
  · rintro ⟨constants, arities, texts, known, main, compiled⟩
    obtain ⟨rfl, each, distinct⟩ := aritiesFrom_eq_ok.1 known
    have code := exists_compileFunctions_iff.1 compiled
    refine ⟨exists_constants_iff.1 ⟨_, texts⟩, fun f mem => (code f mem).1, ?_⟩
    refine {
      hosts := fun f mem => (each f mem).2.1
      distinct
      few := fun f mem => (each f mem).1
      main := ?main
      reads := fun f mem name span has => ?reads
      calls := fun f mem callee arguments span has => ?calls
      divisors := fun f mem op left right span has => (code f mem).2 _ has }
    case main =>
      obtain ⟨n, found⟩ := Option.isSome_iff_exists.1 main
      obtain ⟨f, mem, named, -⟩ := (lookup_map_eq_some distinct).1 found
      exact ⟨f, mem, named⟩
    case reads =>
      have known : name ∈ f.names := (code f mem).2 _ has
      exact (List.mem_append.1 (List.mem_eraseDups.1 known)).imp_right (named f mem name).1
    case calls =>
      have allowed : arity? _ callee = some arguments.length := (code f mem).2 _ has
      rw [arity?] at allowed
      split at allowed
      · next host => exact .inl ⟨host, (Option.some.inj allowed).symm⟩
      · exact .inr ((lookup_map_eq_some distinct).1 allowed)
  · rintro ⟨texts, fine, coherent⟩
    obtain ⟨constants, read⟩ := exists_constants_iff.2 texts
    have distinct := coherent.distinct
    refine ⟨constants, _, read, aritiesFrom_eq_ok.2 ⟨rfl, fun f mem => ?_, distinct⟩, ?_, ?_⟩
    · exact ⟨coherent.few f mem, coherent.hosts f mem, rfl⟩
    · obtain ⟨f, mem, named⟩ := coherent.main
      exact Option.isSome_iff_exists.2 ⟨_, (lookup_map_eq_some distinct).2 ⟨f, mem, named, rfl⟩⟩
    · refine exists_compileFunctions_iff.2 fun f mem => ⟨fine f mem, fun e has => ?_⟩
      cases e with
      | «variable» name span =>
        have known := (coherent.reads f mem name span has).imp_right (named f mem name).2
        exact List.mem_eraseDups.2 (List.mem_append.2 known)
      | binary op left right span => exact coherent.divisors f mem op left right span has
      | call callee arguments span =>
        show arity? _ callee = some arguments.length
        rw [arity?]
        rcases coherent.calls f mem callee arguments span has with ⟨host, one⟩ | ⟨g, among, named, count⟩
        · rw [if_pos host, one]
        · rw [if_neg (by rw [← named, coherent.hosts g among]; exact Bool.false_ne_true)]
          exact (lookup_map_eq_some distinct).2 ⟨g, among, named, count⟩
      | integer | text | negate | isZero | load | broken => trivial

end Program

end Polyglot.B
