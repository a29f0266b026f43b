import Polyglot.Proofs.B.Code

/-!
# How many temporaries there are

Every expression that is more than a value takes a temporary, and every statement starts again
with the first one. So the frame of a function has room for as many as the most demanding of
its statements needs (`Statement.peak_le_demand`).
-/

namespace Polyglot.B

open Polyglot.Assembly (Line)

mutual

/-- How many temporaries an expression needs at most. -/
def Expression.demand : Expression → Nat
  | .negate operand => operand.demand + 1
  | .isZero operand => operand.demand + 1
  | .binary _ left right _ => left.demand + right.demand + 1
  | .call _ arguments _ => demandAll arguments + 1
  | .load base _ _ => base.demand + 1
  | .integer .. | .text _ | .variable .. | .broken .. => 0

/-- How many temporaries a list of expressions needs at most. -/
def demandAll : List Expression → Nat
  | [] => 0
  | e :: es => e.demand + demandAll es

end

variable {s : Scope} {σ σ' : Supply}

/-- Whether a stretch of code has used no more than some number of temporaries. -/
structure Supply.Uses (σ : Supply) (n : Nat) (σ' : Supply) : Prop where
  /-- No more are in use. -/
  temporaries : σ'.temporaries ≤ σ.temporaries + n
  /-- No more were in use. -/
  peak : σ'.peak ≤ max σ.peak (σ.temporaries + n)

namespace Supply.Uses

variable {σ σ₁ σ' : Supply} {m n : Nat}

theorem refl (σ : Supply) : σ.Uses 0 σ := ⟨Nat.le_refl _, Nat.le_max_left ..⟩

theorem trans (h : σ.Uses m σ₁) (h' : σ₁.Uses n σ') : σ.Uses (m + n) σ' := by
  obtain ⟨temporaries, peak⟩ := h
  obtain ⟨temporaries', peak'⟩ := h'
  exact ⟨by omega, by omega⟩

theorem kept (h : σ.Uses n σ₁) : σ.Uses (n + 1) σ₁.kept :=
  h.trans ⟨Nat.le_refl _, Nat.le_refl _⟩

theorem labeled (h : σ.Uses n σ₁) : σ.Uses n σ₁.labeled := ⟨h.temporaries, h.peak⟩

theorem more (h : σ.Uses n σ') : σ.Uses (n + 1) σ' :=
  ⟨Nat.le_succ_of_le h.temporaries, Nat.le_trans h.peak (by omega)⟩

end Supply.Uses

mutual

/-- An expression uses no more temporaries than it needs. -/
theorem Expression.uses (e : Expression) {σ σ' : Supply} {result : List Line × Value}
    (done : e.compile s σ = .ok (result, σ')) : σ.Uses e.demand σ' := by
  cases e with
  | integer n span => rw [(Expression.compile_integer done).2]; exact .refl σ
  | text text =>
    rw [Expression.compile_text] at done
    rw [(Prod.mk.inj (Emit.pure_eq_ok.1 done)).2]
    exact .refl σ
  | «variable» name span => rw [(Expression.compile_variable done).2.2]; exact .refl σ
  | negate e =>
    obtain ⟨code, value, σ₁, compiled, ⟨k, -, -, rfl⟩ | kept⟩ := Expression.compile_negate done
    · exact (e.uses compiled).more
    · obtain ⟨-, rfl⟩ := Prod.mk.inj (Except.ok.inj kept)
      exact (e.uses compiled).kept
  | isZero e =>
    obtain ⟨code, value, σ₁, compiled, ⟨k, -, -, rfl⟩ | kept⟩ := Expression.compile_isZero done
    · exact (e.uses compiled).more
    · obtain ⟨-, rfl⟩ := Prod.mk.inj (Except.ok.inj kept)
      exact (e.uses compiled).kept
  | binary op left right span =>
    obtain ⟨code, a, σ₁, code', b, σ₂, first, second, -, ⟨k, -, -, rfl⟩ | kept⟩ :=
      Expression.compile_binary done
    · exact ((left.uses first).trans (right.uses second)).more
    · obtain ⟨-, rfl⟩ := Prod.mk.inj (Except.ok.inj kept)
      exact ((left.uses first).trans (right.uses second)).kept
  | call callee arguments span =>
    obtain ⟨code, values, σ₁, -, compiled, ⟨host, -, kept⟩ | ⟨-, kept⟩⟩ := Expression.compile_call done
    · obtain ⟨-, rfl⟩ := Prod.mk.inj (Except.ok.inj kept)
      exact (usesAll arguments compiled).kept
    · obtain ⟨-, rfl⟩ := Prod.mk.inj (Except.ok.inj kept)
      exact (usesAll arguments compiled).labeled.kept
  | load base offset span =>
    obtain ⟨-, code, value, σ₁, compiled, kept⟩ := Expression.compile_load done
    obtain ⟨-, rfl⟩ := Prod.mk.inj (Except.ok.inj kept)
    exact (base.uses compiled).kept
  | broken before defect span => exact absurd done Expression.compile_broken_ne

theorem usesAll (es : List Expression) {σ σ' : Supply} {result : List Line × List Value}
    (done : compileAll s es σ = .ok (result, σ')) : σ.Uses (demandAll es) σ' := by
  cases es with
  | nil => rw [(compileAll_nil done).2]; exact .refl σ
  | cons e es =>
    obtain ⟨code, value, σ₁, rest, values, first, others, -⟩ := compileAll_cons done
    exact (e.uses first).trans (usesAll es others)

end

section

variable {n : Nat}

/-- The temporaries of an expression at the start of a statement. -/
theorem Expression.peak_le_demand {e : Expression} {result : List Line × Value} (small : e.demand ≤ n)
    (done : e.compile s σ.released = .ok (result, σ')) :
    σ'.temporaries ≤ n ∧ σ'.peak ≤ max σ.peak n := by
  obtain ⟨temporaries, peak⟩ := e.uses done
  simp only [Supply.released] at temporaries peak
  omega

mutual

/-- A statement has no more temporaries than its expressions need, of which there are at most
two. -/
theorem Statement.peak_le_demand (b : Statement) {σ σ' : Supply} {code : List Line}
    (small : ∀ e ∈ b.expressions, e.demand ≤ n) (done : b.compile s σ = .ok (code, σ')) :
    σ'.peak ≤ max σ.peak (2 * n) := by
  cases b with
  | block body => exact peak_le_demandAll (σ := σ.released) body small (Statement.compile_block done)
  | whileLoop condition body =>
    obtain ⟨_, _, _, _, σ₁, _, tested, compiled, -⟩ := Statement.compile_whileLoop done
    obtain ⟨first, others⟩ := List.forall_mem_cons.1 small
    have tested := Expression.peak_le_demand (σ := σ.labeled.labeled) first tested
    have inside := body.peak_le_demand others compiled
    simp only [Supply.labeled] at tested
    omega
  | ifThen condition positive =>
    obtain ⟨_, _, _, σ₁, _, tested, compiled, -⟩ := Statement.compile_ifThen done
    obtain ⟨first, others⟩ := List.forall_mem_cons.1 small
    have tested := Expression.peak_le_demand (σ := σ.labeled) first tested
    have inside := positive.peak_le_demand others compiled
    simp only [Supply.labeled] at tested
    omega
  | ifElse condition positive negative =>
    obtain ⟨_, _, _, _, σ₁, _, σ₂, _, tested, compiled, compiled', -⟩ :=
      Statement.compile_ifElse done
    obtain ⟨first, others⟩ := List.forall_mem_cons.1 small
    rw [List.forall_mem_append] at others
    have tested := Expression.peak_le_demand (σ := σ.labeled) first tested
    have inside := positive.peak_le_demand others.1 compiled
    have inside' := negative.peak_le_demand others.2 compiled'
    simp only [Supply.labeled] at tested inside'
    omega
  | ret value =>
    cases value with
    | none => rw [(Statement.compile_ret_none done).2]; exact Nat.le_max_left ..
    | some e =>
      obtain ⟨_, _, compiled, -⟩ := Statement.compile_ret_some done
      have := Expression.peak_le_demand (small e (List.mem_singleton_self e)) compiled
      omega
  | assign target e =>
    obtain ⟨_, _, compiled, -⟩ := Statement.compile_assign done
    have := Expression.peak_le_demand (small e (List.mem_singleton_self e)) compiled
    omega
  | store base offset span e =>
    obtain ⟨-, _, _, σ₁, _, _, first, second, -⟩ := Statement.compile_store done
    obtain ⟨small, small'⟩ := List.forall_mem_cons.1 small
    -- the address is still in hand when the value is computed, hence twice as many
    have first := Expression.peak_le_demand small first
    have second := (e.uses second).peak
    have small' := List.forall_mem_singleton.1 small'
    omega
  | call e =>
    obtain ⟨_, compiled⟩ := Statement.compile_call done
    have := Expression.peak_le_demand (small e (List.mem_singleton_self e)) compiled
    omega
  | skip => rw [(Statement.compile_skip done).2]; exact Nat.le_max_left ..
  | broken before defect span => exact absurd done Statement.compile_broken_ne

theorem peak_le_demandAll (bs : List Statement) {σ σ' : Supply} {code : List Line}
    (small : ∀ e ∈ expressionsAll bs, e.demand ≤ n) (done : compileBlock s bs σ = .ok (code, σ')) :
    σ'.peak ≤ max σ.peak (2 * n) := by
  cases bs with
  | nil => rw [(compileBlock_nil done).2]; exact Nat.le_max_left ..
  | cons b bs =>
    obtain ⟨_, σ₁, _, compiled, compiled', -⟩ := compileBlock_cons done
    rw [expressionsAll, List.forall_mem_append] at small
    have first := b.peak_le_demand small.1 compiled
    have others := peak_le_demandAll bs small.2 compiled'
    omega

end

end

end Polyglot.B
