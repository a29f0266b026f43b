import Polyglot.Proofs.B.Layout
import Polyglot.Proofs.Machine.Words

/-!
# Constants

What an expression is reduced to at compile time can be told from the expression alone
(`Expression.constant?`): literals, and operators on what is reduced already, as long as the result is
one that an instruction takes. The compiler gives this value and no code for what is reduced, and no
known value for anything else (`Expression.known?_of_compile`). All constants lie between -32767
and 32767 (`Expression.fits_of_constant?`), since not even a sign before one leads out of there.
-/

namespace Polyglot.B

open Polyglot.Assembly (Line)
open Polyglot.Machine (fits)

/-- The value, if it is known. -/
def Value.known? : Value → Option Int32
  | .int value => some value
  | .slot _ | .constant _ => none

/-- What an operator on constants is reduced to, if an instruction takes the result. -/
def Operator.constant? (op : Operator) (a b : Int32) : Option Int32 :=
  (op.compute? a b).filter fun c => fits c.toInt literalBits

/-- The constant that an expression is reduced to, if it is. -/
def Expression.constant? : Expression → Option Int32
  | .integer value _ => if fits value literalBits then some (Int32.ofInt value) else none
  | .negate operand => operand.constant?.map fun a => -a
  | .isZero operand => operand.constant?.map fun a => truth (a == 0)
  | .binary op left right _ =>
    match left.constant?, right.constant? with
    | some a, some b => op.constant? a b
    | _, _ => none
  | .text _ | .variable .. | .call .. | .load .. | .broken .. => none

/-! ## Bounds -/

theorem fits_literalBits_iff {n : Int} : fits n literalBits ↔ -32767 ≤ n ∧ n ≤ 32767 := by
  have half : Text.bitRange (literalBits - 1) = 32768 := rfl
  rw [fits, half, decide_eq_true_eq]
  omega

theorem fits_truth (holds : Bool) : fits (truth holds).toInt literalBits := by
  cases holds <;> rfl

theorem fits_toInt_neg {a : Int32} (h : fits a.toInt literalBits) : fits (-a).toInt literalBits := by
  rw [fits_literalBits_iff] at h ⊢
  have negated : (-a).toInt = -a.toInt := by
    rw [Int32.toInt_neg, Int.bmod_eq_of_le] <;> omega
  omega

/-- **A constant is one that an instruction takes.** -/
theorem Expression.fits_of_constant? {e : Expression} {c : Int32} (reduced : e.constant? = some c) :
    fits c.toInt literalBits := by
  induction e using Expression.induct generalizing c with
  | step e ih =>
    cases e with
    | integer value span =>
      rw [constant?] at reduced
      split at reduced
      · next small =>
        obtain rfl := Option.some.inj reduced
        have bounds := fits_literalBits_iff.1 small
        have same : (Int32.ofInt value).toInt = value := by
          have size : Int32.size = 2 ^ 32 := rfl
          rw [Int32.toInt_ofInt, Int.bmod_eq_of_le] <;> omega
        rwa [same]
      · cases reduced
    | negate operand =>
      obtain ⟨a, before, rfl⟩ := Option.map_eq_some_iff.1 reduced
      exact fits_toInt_neg (ih operand List.mem_cons_self before)
    | isZero operand =>
      obtain ⟨a, -, rfl⟩ := Option.map_eq_some_iff.1 reduced
      exact fits_truth _
    | binary op left right span =>
      rw [constant?] at reduced
      split at reduced
      · exact (Option.filter_eq_some_iff.1 reduced).2
      · cases reduced
    | text | «variable» | call | load | broken => cases reduced

/-! ## What the compiler knows -/

theorem Operator.fold?_int (op : Operator) (a b : Int32) :
    op.fold? (.int a) (.int b) = (op.constant? a b).map Value.int := by
  rw [Operator.constant?]
  show ((op.compute? a b).bind fun c => if fits c.toInt literalBits then some (Value.int c) else none) = _
  cases op.compute? a b with
  | none => rfl
  | some c =>
    rw [Option.bind_some, Option.filter_some]
    split <;> rfl

section

variable {s : Scope} {σ σ' : Supply} {code : List Line} {value : Value}

/-- Of what is not reduced, nothing is known, and nothing is said about the code. -/
theorem unreduced (known : value.known? = none) :
    value.known? = none ∧ ((none : Option Int32).isSome → code = []) :=
  ⟨known, fun some => absurd some Bool.false_ne_true⟩

/-- What has to be kept in a temporary is not reduced. -/
theorem unreduced_of_keep {before : List Line} {r : Machine.Register}
    (kept : s.keep before r σ = .ok ((code, value), σ')) :
    value.known? = none ∧ ((none : Option Int32).isSome → code = []) := by
  rw [keep_eq] at kept
  obtain ⟨-, rfl⟩ := Prod.mk.inj (Prod.mk.inj (Except.ok.inj kept)).1
  exact unreduced rfl

/-- **What is known of an expression** when it is compiled is the constant that it is reduced to, and then
there is no code. -/
theorem Expression.known?_of_compile {e : Expression} (done : e.compile s σ = .ok ((code, value), σ')) :
    value.known? = e.constant? ∧ (e.constant?.isSome → code = []) := by
  induction e using Expression.induct generalizing σ σ' code value with
  | step e ih =>
    cases e with
    | integer n span =>
      rw [Expression.compile] at done
      rw [constant?]
      split at done
      · next small =>
        obtain ⟨rfl, rfl⟩ := Prod.mk.inj (Prod.mk.inj (Emit.pure_eq_ok.1 done)).1
        rw [if_pos small]
        exact ⟨rfl, fun _ => rfl⟩
      · exact absurd done Emit.throw_ne_ok
    | text text =>
      rw [compile_text] at done
      obtain ⟨rfl, rfl⟩ := Prod.mk.inj (Prod.mk.inj (Emit.pure_eq_ok.1 done)).1
      exact unreduced rfl
    | «variable» name span =>
      obtain ⟨rfl, rfl⟩ := Prod.mk.inj (compile_variable done).2.1
      exact unreduced rfl
    | negate operand | isZero operand =>
      rw [Expression.compile] at done
      obtain ⟨⟨code', value'⟩, σ₁, compiled, done⟩ := Emit.bind_eq_ok.1 done
      obtain ⟨known, alone⟩ := ih operand List.mem_cons_self compiled
      rw [constant?, ← known]
      cases value' with
      | int k =>
        obtain ⟨rfl, rfl⟩ := Prod.mk.inj (Prod.mk.inj (Emit.pure_eq_ok.1 done)).1
        exact ⟨rfl, fun _ => alone (known ▸ rfl)⟩
      | slot | constant => exact unreduced_of_keep done
    | binary op left right span =>
      rw [Expression.compile] at done
      obtain ⟨⟨first, a⟩, σ₁, compiled, done⟩ := Emit.bind_eq_ok.1 done
      obtain ⟨⟨second, b⟩, σ₂, compiled', done⟩ := Emit.bind_eq_ok.1 done
      obtain ⟨known, alone⟩ := ih left List.mem_cons_self compiled
      obtain ⟨known', alone'⟩ := ih right (List.mem_cons_of_mem _ List.mem_cons_self) compiled'
      dsimp only at done
      split at done
      · -- a division by the number zero was not compiled
        obtain ⟨_, _, thrown, -⟩ := Emit.bind_eq_ok.1 done
        exact absurd thrown Emit.throw_ne_ok
      -- an operator is reduced between two numbers only
      rw [constant?, ← known, ← known']
      cases a with
      | slot | constant => exact unreduced_of_keep done
      | int a =>
        cases b with
        | slot | constant => exact unreduced_of_keep done
        | int b =>
          rw [Operator.fold?_int] at done
          dsimp only [Value.known?]
          cases folded : op.constant? a b with
          | none =>
            rw [folded] at done
            exact unreduced_of_keep done
          | some c =>
            rw [folded] at done
            obtain ⟨rfl, rfl⟩ := Prod.mk.inj (Prod.mk.inj (Emit.pure_eq_ok.1 done)).1
            refine ⟨rfl, fun _ => ?_⟩
            rw [alone (known ▸ rfl), alone' (known' ▸ rfl), List.append_nil]
    | call callee arguments span =>
      obtain ⟨code', values, σ₁, -, -, ⟨host, -, kept⟩ | ⟨-, kept⟩⟩ := compile_call done
      · exact unreduced_of_keep kept
      · exact unreduced_of_keep kept
    | load base offset span =>
      obtain ⟨-, code', value', σ₁, -, kept⟩ := compile_load done
      exact unreduced_of_keep kept
    | broken => exact absurd done compile_broken_ne

end

end Polyglot.B
