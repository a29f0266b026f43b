import Polyglot.Proofs.B.Constants
import Polyglot.Proofs.B.Expressions

/-!
# Folding

An expression of literals and operators has a result of its own (`Expression.result?`), unless it
divides by zero. The compiler may find the result out, and then there is no code; but it gives up where
the result of an operator needs more than sixteen bits, and takes it up again further out, with a sign
or a test. So what it finds out is compared with code that finds nothing out: one instruction, or two,
for every sign and every operator, each on operands that were kept in temporaries
(`Expression.unfolded`). The machine comes to the result with that code, or to a division by zero if
there is no result (`Expression.unfolded_simulates`).

What the compiler says about the expression then follows from what it knows about its parts
(`Expression.known?_of_compile`): a constant is the result, and a division is only rejected if it would
be carried out (`Expression.compile_of_isGround`).
-/

namespace Polyglot.B

open Polyglot.Source
open Polyglot.Assembly (Line Listing)
open Polyglot.Machine (Register Setup View Memory fits)

/-- Whether an expression has only literals and operators. -/
def Expression.isGround : Expression → Bool
  | .integer .. | .text _ => true
  | .negate operand | .isZero operand => operand.isGround
  | .binary _ left right _ => left.isGround && right.isGround
  | .variable .. | .call .. | .load .. | .broken .. => false

/-- The result of an expression that has only literals and operators, given the addresses of texts. It
has none if it divides by zero. -/
def Expression.result? (address : String → Int32) : Expression → Option Int32
  | .integer value _ => some (Int32.ofInt value)
  | .text content => some (address content)
  | .negate operand => (operand.result? address).bind fun a => some (-a)
  | .isZero operand => (operand.result? address).bind fun a => some (truth (a == 0))
  | .binary op left right _ =>
    (left.result? address).bind fun a => (right.result? address).bind fun b => op.compute? a b
  | .variable .. | .call .. | .load .. | .broken .. => none

/-- The code of an expression with nothing found out: all operators are carried out. -/
def Expression.unfolded (s : Scope) : Expression → Emit (List Line × Value)
  | .integer value _ => return ([], .int (Int32.ofInt value))
  | .negate operand => do
    let (code, value) ← operand.unfolded s
    s.keep (code ++ [value.load .t1, line "sub" [Register.t0, Register.zero, Register.t1]]) .t0
  | .isZero operand => do
    let (code, value) ← operand.unfolded s
    s.keep (code ++ [value.load .t1, line "not" [Register.t0, Register.t1]]) .t0
  | .binary op left right _ => do
    let (code, a) ← left.unfolded s
    let (code', b) ← right.unfolded s
    s.keep (code ++ code' ++ op.lines a b) .t0
  | .text content => return ([], .constant (s.constants.idxOf content))
  | .variable name span => (Expression.variable name span).compile s
  | .call callee arguments span => (Expression.call callee arguments span).compile s
  | .load base offset span => (Expression.load base offset span).compile s
  | .broken before defect span => (Expression.broken before defect span).compile s

/-! ## Constants are results -/

namespace Expression

variable {e : Expression} {address : String → Int32} {c : Int32}

/-- A constant is the result, wherever the texts are. -/
theorem result?_of_constant? (reduced : e.constant? = some c) : e.result? address = some c := by
  induction e using Expression.induct generalizing c with
  | step e ih =>
    cases e with
    | integer value span =>
      rw [constant?] at reduced
      exact (Option.ite_none_right_eq_some.1 reduced).2
    | negate operand | isZero operand =>
      obtain ⟨a, before, rfl⟩ := Option.map_eq_some_iff.1 reduced
      rw [result?, ih operand List.mem_cons_self before]
      rfl
    | binary op left right span =>
      rw [constant?] at reduced
      split at reduced
      · next a b first second =>
        rw [result?, ih left List.mem_cons_self first,
          ih right (List.mem_cons_of_mem _ List.mem_cons_self) second]
        exact (Option.filter_eq_some_iff.1 reduced).1
      · cases reduced
    | text | «variable» | call | load | broken => cases reduced

end Expression

/-- Nothing is divided by zero. -/
theorem Operator.compute?_zero {op : Operator} (divides : op.divides) (a : Int32) :
    op.compute? a 0 = none := by
  cases op with
  | div | mod => rfl
  | add | sub | mul | or | and | eq | ne | gt | ge | lt | le => cases divides

/-! ## Code with nothing found out -/

section

variable {x : Setup} {l : Listing} {s : Scope} {env : Env} {v : View} {peak base k : Nat} {value : Value}

theorem Run.ofOption_bind {α β : Type} (reason : Stop) (o : Option α) (f : α → Option β) :
    Run.ofOption reason (o.bind f)
      = (Run.ofOption reason o).andThen fun a => Run.ofOption reason (f a) := by
  cases o <;> rfl

theorem Run.ofOption_andThen_stop {α β : Type} (reason : Stop) (o : Option α) :
    (Run.ofOption reason o).andThen (fun _ => Run.stop reason) = (Run.stop reason : Run β) := by
  cases o <;> rfl

variable {σ σ' σ'' : Supply} {e left right : Expression} {op : Operator} {span : Span}
  {code code' : List Line} {value' : Value}

namespace Expression

theorem unfolded_negate (done : e.unfolded s σ = .ok ((code, value), σ')) :
    (negate e).unfolded s σ = .ok ((code
      ++ [value.load .t1, line "sub" [Register.t0, Register.zero, Register.t1],
        saveTo (s.names.length + (σ'.temporaries + 1)) .t0],
      .slot (s.names.length + (σ'.temporaries + 1))), σ'.kept) := by
  refine Emit.bind_eq_ok.2 ⟨_, _, done, (keep_eq ..).trans ?_⟩
  rw [List.append_assoc]
  rfl

theorem unfolded_isZero (done : e.unfolded s σ = .ok ((code, value), σ')) :
    (isZero e).unfolded s σ = .ok ((code
      ++ [value.load .t1, line "not" [Register.t0, Register.t1],
        saveTo (s.names.length + (σ'.temporaries + 1)) .t0],
      .slot (s.names.length + (σ'.temporaries + 1))), σ'.kept) := by
  refine Emit.bind_eq_ok.2 ⟨_, _, done, (keep_eq ..).trans ?_⟩
  rw [List.append_assoc]
  rfl

theorem unfolded_binary (first : left.unfolded s σ = .ok ((code, value), σ'))
    (second : right.unfolded s σ' = .ok ((code', value'), σ'')) :
    (binary op left right span).unfolded s σ = .ok ((code
      ++ (code' ++ (op.lines value value' ++ [saveTo (s.names.length + (σ''.temporaries + 1)) .t0])),
      .slot (s.names.length + (σ''.temporaries + 1))), σ''.kept) := by
  refine Emit.bind_eq_ok.2 ⟨_, _, first, Emit.bind_eq_ok.2 ⟨_, _, second, (keep_eq ..).trans ?_⟩⟩
  rw [List.append_assoc, List.append_assoc]

/-- There is code for every expression of literals and operators. -/
theorem exists_unfolded (s : Scope) (σ : Supply) (ground : e.isGround) :
    ∃ code value σ', e.unfolded s σ = .ok ((code, value), σ') ∧ σ.Within σ' := by
  induction e using Expression.induct generalizing σ with
  | step e ih =>
    cases e with
    | integer | text => exact ⟨_, _, _, rfl, .refl⟩
    | negate operand =>
      obtain ⟨code, value, σ₁, done, within⟩ := ih operand List.mem_cons_self σ ground
      exact ⟨_, _, _, unfolded_negate done, within.trans σ₁.within_kept⟩
    | isZero operand =>
      obtain ⟨code, value, σ₁, done, within⟩ := ih operand List.mem_cons_self σ ground
      exact ⟨_, _, _, unfolded_isZero done, within.trans σ₁.within_kept⟩
    | binary op left right span =>
      obtain ⟨ground, ground'⟩ := Bool.and_eq_true_iff.1 ground
      obtain ⟨_, _, σ₁, first, within⟩ := ih left List.mem_cons_self σ ground
      obtain ⟨_, _, σ₂, second, within'⟩ :=
        ih right (List.mem_cons_of_mem _ List.mem_cons_self) σ₁ ground'
      exact ⟨_, _, _, unfolded_binary first second, (within.trans within').trans σ₂.within_kept⟩
    | «variable» | call | load | broken => cases ground

theorem within_unfolded {result : List Line × Value} (ground : e.isGround)
    (done : e.unfolded s σ = .ok (result, σ')) : σ.Within σ' := by
  obtain ⟨code, value, σ₁, done', within⟩ := exists_unfolded s σ ground
  cases done'.symm.trans done
  exact within

/-- **Code with nothing found out** comes to the result of the expression, or to a division by zero if
there is none. -/
theorem unfolded_simulates (assembled : l.assemble = .ok x.program) (ground : e.isGround)
    (done : e.unfolded s σ = .ok ((code, value), σ')) (contains : l.Contains k code)
    (frame : Frame x s.names peak base env v) (le : σ'.peak ≤ peak) :
    Simulates x 0 (l.before k) v
      (.ofOption .divisionByZero (e.result? fun text => l.textAddress (s.constants.idxOf text)))
      (Performed l s peak base σ.temporaries (k + code.length) σ'.temporaries value v) := by
  induction e using Expression.induct generalizing σ σ' code value k v with
  | step e ih =>
    cases e with
    | integer n span =>
      cases done
      exact .give ⟨rfl, rfl, .refl, .inl rfl⟩
    | text text =>
      cases done
      exact .give ⟨rfl, rfl, .refl, .inr ⟨_, rfl, rfl⟩⟩
    | negate operand =>
      obtain ⟨code', value', σ₁, first, within⟩ := exists_unfolded (e := operand) s σ ground
      cases (unfolded_negate first).symm.trans done
      have peak_le : σ₁.peak ≤ peak ∧ σ₁.temporaries + 1 ≤ peak := Nat.max_le.1 le
      rw [Listing.contains_append] at contains
      rw [result?, Run.ofOption_bind, List.length_append, ← Nat.add_assoc]
      have inner := ih operand List.mem_cons_self ground first contains.1 frame peak_le.1
      exact (simulates_unary assembled frame (goes_negate assembled) contains.2 within.temporaries
        peak_le.2 inner).weaken fun _ _ _ h => h.performed
    | isZero operand =>
      obtain ⟨code', value', σ₁, first, within⟩ := exists_unfolded (e := operand) s σ ground
      cases (unfolded_isZero first).symm.trans done
      have peak_le : σ₁.peak ≤ peak ∧ σ₁.temporaries + 1 ≤ peak := Nat.max_le.1 le
      rw [Listing.contains_append] at contains
      rw [result?, Run.ofOption_bind, List.length_append, ← Nat.add_assoc]
      have inner := ih operand List.mem_cons_self ground first contains.1 frame peak_le.1
      exact (simulates_unary assembled frame (fun _ => goes_not assembled) contains.2 within.temporaries
        peak_le.2 inner).weaken fun _ _ _ h => h.performed
    | binary op left right span =>
      obtain ⟨ground, ground'⟩ := Bool.and_eq_true_iff.1 ground
      obtain ⟨code₁, value₁, σ₁, first, within⟩ := exists_unfolded s σ ground
      obtain ⟨code₂, value₂, σ₂, second, within'⟩ := exists_unfolded s σ₁ ground'
      cases (unfolded_binary first second).symm.trans done
      have peak_le : σ₂.peak ≤ peak ∧ σ₂.temporaries + 1 ≤ peak := Nat.max_le.1 le
      rw [Listing.contains_append, Listing.contains_append] at contains
      obtain ⟨inner, inner', lines⟩ := contains
      simp only [result?, Run.ofOption_bind]
      have one := ih left List.mem_cons_self ground first inner frame (Nat.le_trans within'.peak peak_le.1)
      have done := simulates_binary assembled frame op lines within within' peak_le.2 one
        fun v₁ frame₁ => ih right (List.mem_cons_of_mem _ List.mem_cons_self) ground' second inner' frame₁
          peak_le.1
      simpa [Nat.add_assoc] using done.weaken fun _ _ _ h => h.performed
    | «variable» | call | load | broken => cases ground

end Expression

end

/-! ## What the compiler says -/

namespace Expression

/-- Whether code with nothing found out leaves a word where it says, in every program that has this code
somewhere, and with every frame. -/
def Yields (s : Scope) (σ : Supply) (e : Expression) (c : Int32) : Prop :=
  ∃ code value σ', e.unfolded s σ = .ok ((code, value), σ')
    ∧ ∀ (x : Setup) (l : Listing) (k peak base : Nat) (env : Env) (v : View),
      l.assemble = .ok x.program → l.Contains k code → Frame x s.names peak base env v → σ'.peak ≤ peak →
      Simulates x 0 (l.before k) v (.give c)
        (Performed l s peak base σ.temporaries (k + code.length) σ'.temporaries value v)

/-- Whether code with nothing found out comes to a division by zero, in every program that has this code
somewhere, and with every frame. What comes after the division need not be there. -/
def Divides (s : Scope) (σ : Supply) (e : Expression) : Prop :=
  ∃ code rest value σ', e.unfolded s σ = .ok ((code ++ rest, value), σ')
    ∧ ∀ (x : Setup) (l : Listing) (k peak base : Nat) (env : Env) (v : View),
      l.assemble = .ok x.program → l.Contains k code → Frame x s.names peak base env v → σ'.peak ≤ peak →
      x.Faults (l.before k) v v.output

variable {s : Scope} {σ τ : Supply} {e e' : Expression} {span : Span} {c : Int32}

/-- Code goes as the code that it starts with. -/
theorem Divides.of_starts (h : e.Divides s σ)
    (starts : ∀ code value σ', e.unfolded s σ = .ok ((code, value), σ') →
      ∃ rest value' σ'', e'.unfolded s σ = .ok ((code ++ rest, value'), σ'') ∧ σ'.peak ≤ σ''.peak) :
    e'.Divides s σ := by
  obtain ⟨code, rest, value, σ', done, faults⟩ := h
  obtain ⟨rest', value', σ'', done', le⟩ := starts _ _ _ done
  refine ⟨code, rest ++ rest', value', σ'', List.append_assoc .. ▸ done', ?_⟩
  intro x l k peak base env v assembled contains frame le'
  exact faults x l k peak base env v assembled contains frame (Nat.le_trans le le')

/-- Without a result there is a division by zero. -/
theorem Divides.of_result? (ground : e.isGround) (none : ∀ address, e.result? address = none) :
    e.Divides s σ := by
  obtain ⟨code, value, σ', done, -⟩ := exists_unfolded s σ ground
  refine ⟨code, [], value, σ', by rwa [List.append_nil], ?_⟩
  intro x l k peak base env v assembled contains frame le
  have simulates := unfolded_simulates assembled ground done contains frame le
  rwa [none] at simulates

/-- What divides by zero does so as a right operand, too. The code of the left one is executed first, and
may divide by zero itself. -/
theorem Divides.of_right {op : Operator} {left right : Expression} {span : Span} (ground : left.isGround)
    (ground' : right.isGround) (h : ∀ σ₁, right.Divides s σ₁) :
    (Expression.binary op left right span).Divides s σ := by
  obtain ⟨code₁, value₁, σ₁, first, within⟩ := exists_unfolded s σ ground
  obtain ⟨code₂, rest, value₂, σ₂, second, faults⟩ := h σ₁
  have done : (Expression.binary op left right span).unfolded s σ = _ := unfolded_binary first second
  rw [List.append_assoc, ← List.append_assoc] at done
  refine ⟨code₁ ++ code₂, _, _, _, done, ?_⟩
  intro x l k peak base env v assembled contains frame le
  have within' := within_unfolded ground' second
  have peak_le : σ₂.peak ≤ peak ∧ σ₂.temporaries + 1 ≤ peak := Nat.max_le.1 le
  rw [Listing.contains_append] at contains
  have both : Simulates x 0 (l.before k) v
      ((Run.ofOption .divisionByZero
          (left.result? fun text => l.textAddress (s.constants.idxOf text))).andThen
        fun _ => .stop .divisionByZero)
      fun (_ : Int32) _ _ => False := by
    refine (unfolded_simulates assembled ground first contains.1 frame
      (Nat.le_trans within'.peak peak_le.1)).andThen fun a n' v₁ h => ?_
    obtain rfl := h.done
    exact .divisionByZero (faults x l _ peak base env v₁ assembled contains.2
      (frame.keep h.sp h.keeps (by omega)) peak_le.1)
  rwa [Run.ofOption_andThen_stop] at both

/-- **What is rejected would be carried out.** -/
theorem divides_of_compile (ground : e.isGround) (failed : e.compile s τ = .error (.divisionByZero span)) :
    e.Divides s σ := by
  induction e using Expression.induct generalizing σ τ with
  | step e ih =>
    cases e with
    | integer value span =>
      rw [Expression.compile] at failed
      split at failed <;> cases failed
    | text text =>
      rw [Expression.compile] at failed
      cases failed
    | negate operand =>
      rw [Expression.compile] at failed
      obtain failed | ⟨⟨code, value⟩, τ₁, -, failed⟩ := Emit.bind_eq_error.1 failed
      · exact (ih operand List.mem_cons_self ground failed).of_starts fun code value σ' done =>
          ⟨_, _, _, unfolded_negate done, σ'.within_kept.peak⟩
      · dsimp only at failed
        split at failed <;> cases failed
    | isZero operand =>
      rw [Expression.compile] at failed
      obtain failed | ⟨⟨code, value⟩, τ₁, -, failed⟩ := Emit.bind_eq_error.1 failed
      · exact (ih operand List.mem_cons_self ground failed).of_starts fun code value σ' done =>
          ⟨_, _, _, unfolded_isZero done, σ'.within_kept.peak⟩
      · dsimp only at failed
        split at failed <;> cases failed
    | binary op left right signSpan =>
      obtain ⟨ground₁, ground₂⟩ := Bool.and_eq_true_iff.1 ground
      rw [Expression.compile] at failed
      obtain failed | ⟨⟨code, a⟩, τ₁, -, failed⟩ := Emit.bind_eq_error.1 failed
      · -- the left operand divides by zero, and its code comes first
        refine (ih left List.mem_cons_self ground₁ failed).of_starts fun code value σ₁ first => ?_
        obtain ⟨code', value', σ₂, second, within⟩ := exists_unfolded s σ₁ ground₂
        exact ⟨_, _, _, unfolded_binary first second, (within.trans σ₂.within_kept).peak⟩
      obtain failed | ⟨⟨code', b⟩, τ₂, compiled, failed⟩ := Emit.bind_eq_error.1 failed
      · -- the right operand does, behind the code of the left one
        exact .of_right ground₁ ground₂ fun σ₁ =>
          ih right (List.mem_cons_of_mem _ List.mem_cons_self) ground₂ failed
      · -- the operator itself does: its right operand is known to be zero
        refine .of_result? ground fun address => ?_
        dsimp only at failed
        split at failed
        · next rejected =>
          obtain ⟨divides, zero⟩ := Bool.and_eq_true_iff.1 rejected
          obtain rfl : b = .int 0 := eq_of_beq zero
          have known := (known?_of_compile compiled).1
          rw [result?, result?_of_constant? known.symm]
          cases left.result? address with
          | none => rfl
          | some a => exact op.compute?_zero divides a
        · cases folded : op.fold? a b <;> rw [folded] at failed <;> cases failed
    | «variable» | call | load | broken => cases ground

/-- **Folding agrees with execution.** For every expression of literals and operators, a constant that
the compiler reduces it to lies between -32767 and 32767, needs no code, and is the word that the
machine computes when every operator is carried out; and a division that the compiler rejects would
then divide by zero. -/
theorem compile_of_isGround (ground : e.isGround) :
    (∀ code c σ', e.compile s σ = .ok ((code, .int c), σ') →
      code = [] ∧ (-32767 ≤ c.toInt ∧ c.toInt ≤ 32767) ∧ e.Yields s σ c)
    ∧ ∀ span, e.compile s σ = .error (.divisionByZero span) → e.Divides s σ := by
  refine ⟨fun code c σ' compiled => ?_, fun span failed => divides_of_compile ground failed⟩
  obtain ⟨known, alone⟩ := known?_of_compile compiled
  have reduced : e.constant? = some c := known.symm
  refine ⟨alone (reduced ▸ rfl), fits_literalBits_iff.1 (fits_of_constant? reduced), ?_⟩
  obtain ⟨code', value, σ₁, done, -⟩ := exists_unfolded s σ ground
  refine ⟨code', value, σ₁, done, ?_⟩
  intro x l k peak base env v assembled contains frame le
  have simulates := unfolded_simulates assembled ground done contains frame le
  rwa [result?_of_constant? reduced] at simulates

/-- `-(7 / -2) == 3`, which is 1. -/
def turned : Expression :=
  .binary .eq
    (.negate (.binary .div (.integer 7 .start) (.negate (.integer 2 .start)) .start))
    (.integer 3 .start) .start

/-- `200 * 200 / (5 - 5)`, where the product needs more than sixteen bits. -/
def vanishing : Expression :=
  .binary .div (.binary .mul (.integer 200 .start) (.integer 200 .start) .start)
    (.binary .sub (.integer 5 .start) (.integer 5 .start) .start) .start

/-- The first one is reduced to what the machine computes, and the second one is rejected for what the
machine would come to. -/
theorem compile_turned_vanishing : (turned.isGround ∧ turned.Yields ⟨[], [], [], "end"⟩ {} 1)
    ∧ vanishing.isGround ∧ vanishing.Divides ⟨[], [], [], "end"⟩ {} :=
  ⟨⟨rfl, ((compile_of_isGround rfl).1 [] 1 {} rfl).2.2⟩, rfl, (compile_of_isGround rfl).2 .start rfl⟩

end Expression

end Polyglot.B
