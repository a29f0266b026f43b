import Mathlib.Algebra.Order.Ring.Nat
import Mathlib.Data.List.Intervals
import Polyglot.Proofs.Assembly.Trees
import Polyglot.Proofs.Assembly.WellFormed
import Polyglot.Proofs.B.Emission

/-!
# What code refers to

The labels of a stretch of code are those that the supply has given out while it was
compiled, each once, and its lines are instructions that refer to nothing but labels that
were given out, functions, texts and slots (`Emits`).
-/

namespace Polyglot.B

open Polyglot.Assembly (Line Listing Operand Command HasArity labelsOf)
open Polyglot.Machine (Register Syscall fits)

/-! ## What is compiled -/

mutual

/-- The texts in an expression. -/
def Expression.texts : Expression → List String
  | .text text => [text]
  | .negate operand => operand.texts
  | .isZero operand => operand.texts
  | .binary _ left right _ => left.texts ++ right.texts
  | .call _ arguments _ => textsAll arguments
  | .load base _ _ => base.texts
  | .integer .. | .variable .. | .broken .. => []

/-- The texts in a list of expressions. -/
def textsAll : List Expression → List String
  | [] => []
  | e :: es => e.texts ++ textsAll es

end

mutual

/-- The expressions of a statement. -/
def Statement.expressions : Statement → List Expression
  | .block body => expressionsAll body
  | .whileLoop condition body => condition :: body.expressions
  | .ifThen condition positive => condition :: positive.expressions
  | .ifElse condition positive negative =>
    condition :: (positive.expressions ++ negative.expressions)
  | .ret value => value.toList
  | .assign _ value => [value]
  | .store base _ _ value => [base, value]
  | .call call => [call]
  | .skip | .broken .. => []

/-- The expressions of a list of statements. -/
def expressionsAll : List Statement → List Expression
  | [] => []
  | b :: bs => b.expressions ++ expressionsAll bs

end

/-! ## What a line may refer to -/

namespace Scope

/-- Whether an operand is there once the supply is what it is: a register, the end of the
function, a label that was given out, the label of a function, a text, or a number that is a
word or the distance of a slot. -/
def Allows (s : Scope) (σ : Supply) : Operand → Prop
  | .register _ => True
  | .label name => name = s.ending ∨ (∃ k < σ.labels, name = numbered k)
      ∨ ∃ callee, (s.arities.lookup callee).isSome ∧ name = functionLabel callee
  | .int value => value.natAbs ≤ 2 ^ 31 + 4 * (s.names.length + σ.peak + 1)
  | .constant index => index < s.constants.length

/-- Whether a line is an instruction with operands that are there. -/
def AllowsLine (s : Scope) (σ : Supply) : Line → Prop
  | .label .. => False
  | .instruction mnemonic operands _ =>
    HasArity mnemonic operands.length
      ∧ (Command.ofLine mnemonic operands .start).toOption.isSome
      ∧ ∀ o ∈ operands, s.Allows σ o

/-- Whether a value is there. -/
def AllowsValue (s : Scope) (σ : Supply) : Value → Prop
  | .slot n => n ≤ s.names.length + σ.peak
  | .int _ => True
  | .constant index => index < s.constants.length

variable {s : Scope} {σ σ' : Supply}

/-- Whether all that is there in one scope is there in another one. -/
structure Widens (s : Scope) (σ : Supply) (s' : Scope) (σ' : Supply) : Prop where
  /-- There are as many texts. -/
  constants : s.constants.length ≤ s'.constants.length
  /-- There are the same functions. -/
  arities : s.arities = s'.arities
  /-- The end of the function is there. -/
  ending : s'.Allows σ' (.label s.ending)
  /-- No label is taken back. -/
  labels : σ.labels ≤ σ'.labels
  /-- There are as many slots. -/
  slots : s.names.length + σ.peak ≤ s'.names.length + σ'.peak

theorem Allows.widen {s' : Scope} {o : Operand} (h : s.Allows σ o) (wide : s.Widens σ s' σ') :
    s'.Allows σ' o := by
  cases o with
  | register => trivial
  | label name =>
    rcases h with rfl | ⟨k, lt, rfl⟩ | h
    · exact wide.ending
    · exact .inr (.inl ⟨k, Nat.lt_of_lt_of_le lt wide.labels, rfl⟩)
    · exact .inr (.inr (wide.arities ▸ h))
  | int value =>
    have slots := wide.slots
    unfold Allows at h ⊢
    omega
  | constant index => exact Nat.lt_of_lt_of_le h wide.constants

theorem AllowsLine.widen {s' : Scope} {line : Line} (h : s.AllowsLine σ line)
    (wide : s.Widens σ s' σ') : s'.AllowsLine σ' line := by
  cases line with
  | label => exact h
  | instruction mnemonic operands span =>
    obtain ⟨arity, isCommand, operands⟩ := h
    exact ⟨arity, isCommand, fun o mem => (operands o mem).widen wide⟩

theorem AllowsLine.mono {line : Line} (h : s.AllowsLine σ line) (labels : σ.labels ≤ σ'.labels)
    (peak : σ.peak ≤ σ'.peak) : s.AllowsLine σ' line :=
  h.widen ⟨Nat.le_refl _, rfl, .inl rfl, labels, Nat.add_le_add_left peak _⟩

theorem AllowsLine.label?_eq_none {line : Line} (h : s.AllowsLine σ line) : line.label? = none := by
  cases line with
  | label => exact h.elim
  | instruction => rfl

theorem AllowsValue.mono {value : Value} (h : s.AllowsValue σ value) (peak : σ.peak ≤ σ'.peak) :
    s.AllowsValue σ' value := by
  cases value with
  | slot n => exact Nat.le_trans h (Nat.add_le_add_left peak _)
  | int | constant => exact h

theorem allows_word (value : Int32) : s.Allows σ (.int value.toInt) := by
  have lower := value.le_toInt
  have upper := value.toInt_lt
  unfold Allows
  omega

theorem allows_slot {n : Nat} (le : n ≤ s.names.length + σ.peak + 1) : s.Allows σ (.int (4 * n)) := by
  unfold Allows
  omega

theorem allows_offset {offset : Int} (small : fits offset literalBits) : s.Allows σ (.int offset) := by
  have lt : offset.natAbs < 32768 := of_decide_eq_true small
  unfold Allows
  omega

theorem allowsLine_load {value : Value} (h : s.AllowsValue σ value) (r : Register) :
    s.AllowsLine σ (value.load r) := by
  cases value with
  | slot n =>
    have operands : ∀ o ∈ [Operand.register r, .register .sp, .int (4 * n)], s.Allows σ o := by
      simpa [Allows] using allows_slot (Nat.le_succ_of_le h)
    exact ⟨.inr (.inr ⟨by decide, rfl⟩), rfl, operands⟩
  | int value =>
    have operands : ∀ o ∈ [Operand.register r, .int value.toInt], s.Allows σ o := by
      simpa [Allows] using allows_word value
    exact ⟨.inr (.inl ⟨by decide, rfl⟩), rfl, operands⟩
  | constant index =>
    have there : index < s.constants.length := h
    have operands : ∀ o ∈ [Operand.register r, .constant index], s.Allows σ o := by
      simpa [Allows] using there
    exact ⟨.inr (.inl ⟨by decide, rfl⟩), rfl, operands⟩

theorem allowsLine_loads {registers : List Register} {values : List Value}
    (h : ∀ value ∈ values, s.AllowsValue σ value) :
    ∀ line ∈ List.zipWith Value.load registers values, s.AllowsLine σ line := by
  induction registers generalizing values with
  | nil => nofun
  | cons r registers ih =>
    cases values with
    | nil => nofun
    | cons value values =>
      obtain ⟨first, others⟩ := List.forall_mem_cons.1 h
      exact List.forall_mem_cons.2 ⟨allowsLine_load first r, ih others⟩

theorem allowsLine_saveTo {n : Nat} (le : n ≤ s.names.length + σ.peak + 1) (r : Register) :
    s.AllowsLine σ (saveTo n r) := by
  have operands : ∀ o ∈ [Operand.register r, .register .sp, .int (4 * n)], s.Allows σ o := by
    simpa [Allows] using allows_slot le
  exact ⟨.inr (.inr ⟨by decide, rfl⟩), rfl, operands⟩

theorem allowsLine_operator (op : Operator) {left right : Value} (h : s.AllowsValue σ left)
    (h' : s.AllowsValue σ right) : ∀ line ∈ op.lines left right, s.AllowsLine σ line := by
  have registers : s.AllowsLine σ (line op.mnemonic [Register.t0, Register.t1, Register.t2]) := by
    have arity : HasArity op.mnemonic 3 := .inr (.inr ⟨by cases op <;> decide, rfl⟩)
    exact ⟨arity, by cases op <;> rfl, by simp [Allows]⟩
  have withValue (value : Int32) :
      s.AllowsLine σ (line (op.mnemonic ++ "v") [Register.t0, Register.t1, .int value.toInt]) := by
    have arity : HasArity (op.mnemonic ++ "v") 3 := .inr (.inr ⟨by cases op <;> decide, rfl⟩)
    have operands : ∀ o ∈ [Operand.register .t0, .register .t1, .int value.toInt], s.Allows σ o := by
      simpa [Allows] using allows_word value
    exact ⟨arity, by cases op <;> rfl, operands⟩
  have first := allowsLine_load h .t1
  cases right with
  | int value =>
    exact List.forall_mem_cons.2 ⟨first, List.forall_mem_singleton.2 (withValue value)⟩
  | slot | constant =>
    have second := allowsLine_load h' .t2
    exact List.forall_mem_cons.2
      ⟨first, List.forall_mem_cons.2 ⟨second, List.forall_mem_singleton.2 registers⟩⟩

theorem allowsLine_host (host : Syscall) {values : List Value} (h : ∀ value ∈ values, s.AllowsValue σ value) :
    ∀ line ∈ hostLines host values, s.AllowsLine σ line := by
  have number : s.Allows σ (.int host.number) := by
    have few : host.number < 8 := by cases host <;> decide
    unfold Allows
    omega
  have call : s.AllowsLine σ (line "sysv" [.int host.number]) :=
    ⟨.inl ⟨by decide, rfl⟩, rfl, List.forall_mem_singleton.2 number⟩
  exact List.forall_mem_append.2 ⟨allowsLine_loads h, List.forall_mem_singleton.2 call⟩

theorem allowsLine_jumpv {name : String} (h : s.Allows σ (.label name)) :
    s.AllowsLine σ (line "jumpv" [.label name]) :=
  ⟨.inl ⟨by decide, rfl⟩, rfl, List.forall_mem_singleton.2 h⟩

theorem allowsLine_jumpUnless {value : Value} {name : String} (h : s.AllowsValue σ value)
    (h' : s.Allows σ (.label name)) : ∀ line ∈ jumpUnless value name, s.AllowsLine σ line := by
  have test : s.AllowsLine σ (line "eqv" [Register.t0, Register.t0, .int 0]) :=
    ⟨.inr (.inr ⟨by decide, rfl⟩), rfl, by simp [Allows]⟩
  have operands : ∀ o ∈ [Operand.label name, .register .t0], s.Allows σ o :=
    List.forall_mem_cons.2 ⟨h', List.forall_mem_singleton.2 trivial⟩
  have jump : s.AllowsLine σ (line "jumpifv" [.label name, Register.t0]) :=
    ⟨.inr (.inl ⟨by decide, rfl⟩), rfl, operands⟩
  exact List.forall_mem_cons.2 ⟨allowsLine_load h .t0, List.forall_mem_cons.2
    ⟨test, List.forall_mem_singleton.2 jump⟩⟩

end Scope

/-! ## Stretches of code -/

/-- The labels from one number up to another. -/
def numberedFrom (a b : Nat) : List String := (List.Ico a b).map numbered

theorem numberedFrom_self (a : Nat) : numberedFrom a a = [] := by
  rw [numberedFrom, List.Ico.self_empty, List.map_nil]

theorem numberedFrom_append {a b c : Nat} (h : a ≤ b) (h' : b ≤ c) :
    numberedFrom a b ++ numberedFrom b c = numberedFrom a c := by
  rw [numberedFrom, numberedFrom, ← List.map_append, List.Ico.append_consecutive h h', numberedFrom]

theorem numberedFrom_cons {a b : Nat} (h : a < b) :
    numberedFrom a b = numbered a :: numberedFrom (a + 1) b := by
  rw [numberedFrom, List.Ico.eq_cons h, List.map_cons, numberedFrom]

/-- Whether a stretch of code is as it should be between two supplies. -/
structure Emits (s : Scope) (σ : Supply) (code : List Line) (σ' : Supply) : Prop where
  /-- No label is taken back. -/
  grows : σ.labels ≤ σ'.labels
  /-- No temporary is forgotten. -/
  peak : σ.peak ≤ σ'.peak
  /-- The labels are those that were given out. -/
  labels : (labelsOf code).Perm (numberedFrom σ.labels σ'.labels)
  /-- The other lines refer to what is there. -/
  lines : ∀ line ∈ code, line.label? = none → s.AllowsLine σ' line

namespace Emits

variable {s : Scope} {σ σ' σ₁ : Supply} {code code' : List Line}

/-- Code without labels. -/
theorem of_instructions (grows : σ.labels = σ'.labels) (peak : σ.peak ≤ σ'.peak)
    (lines : ∀ line ∈ code, s.AllowsLine σ' line) : Emits s σ code σ' where
  grows := Nat.le_of_eq grows
  peak := peak
  labels := by
    have none : labelsOf code = [] :=
      List.filterMap_eq_nil_iff.2 fun line mem => (lines line mem).label?_eq_none
    rw [none, grows, numberedFrom_self]
  lines line mem _ := lines line mem

theorem nil : Emits s σ [] σ := of_instructions rfl (Nat.le_refl _) nofun

theorem append (h : Emits s σ code σ₁) (h' : Emits s σ₁ code' σ') : Emits s σ (code ++ code') σ' where
  grows := Nat.le_trans h.grows h'.grows
  peak := Nat.le_trans h.peak h'.peak
  labels := by
    rw [Assembly.labelsOf_append, ← numberedFrom_append h.grows h'.grows]
    exact h.labels.append h'.labels
  lines := List.forall_mem_append.2
    ⟨fun line mem none => (h.lines line mem none).mono h'.grows h'.peak, h'.lines⟩

/-- Instructions at the end of a stretch. -/
theorem instructions (h : Emits s σ code σ') (lines : ∀ line ∈ code', s.AllowsLine σ' line) :
    Emits s σ (code ++ code') σ' :=
  h.append (of_instructions rfl (Nat.le_refl _) lines)

/-- Code and then the label that was given out before it. -/
theorem label (h : Emits s σ.labeled code σ') : Emits s σ (code ++ [place (numbered σ.labels)]) σ' where
  grows := Nat.le_of_succ_le h.grows
  peak := h.peak
  labels := by
    rw [Assembly.labelsOf_append, numberedFrom_cons h.grows]
    exact (List.perm_append_singleton ..).trans (h.labels.cons _)
  lines := List.forall_mem_append.2 ⟨h.lines, List.forall_mem_singleton.2 nofun⟩

/-- The lines of a call. -/
theorem call {callee : String} {values : List Value} (known : (s.arities.lookup callee).isSome)
    (h : ∀ value ∈ values, s.AllowsValue σ value) :
    Emits s σ (Scope.callLines callee (numbered σ.labels) values) σ.labeled := by
  have back : s.Allows σ.labeled (.label (numbered σ.labels)) :=
    .inr (.inl ⟨σ.labels, Nat.lt_succ_self _, rfl⟩)
  have address : s.AllowsLine σ.labeled (line "setv" [Register.ra, .label (numbered σ.labels)]) :=
    ⟨.inr (.inl ⟨by decide, rfl⟩), rfl, List.forall_mem_cons.2
      ⟨trivial, List.forall_mem_singleton.2 back⟩⟩
  have jump : s.AllowsLine σ.labeled (line "jumpv" [.label (functionLabel callee)]) :=
    Scope.allowsLine_jumpv (.inr (.inr ⟨callee, known, rfl⟩))
  have code : Emits s σ.labeled (List.zipWith Value.load Register.arguments values
      ++ [line "setv" [Register.ra, .label (numbered σ.labels)],
        line "jumpv" [.label (functionLabel callee)]]) σ.labeled :=
    of_instructions rfl (Nat.le_refl _) (List.forall_mem_append.2
      ⟨Scope.allowsLine_loads h, List.forall_mem_cons.2 ⟨address, List.forall_mem_singleton.2 jump⟩⟩)
  have labeled := code.label
  rwa [List.append_assoc] at labeled

/-- The last lines of a stretch that leaves its result in a temporary. -/
theorem keep {r : Register} {result : List Line × Value} (h : Emits s σ code σ₁)
    (kept : s.keep code r σ₁ = .ok (result, σ')) :
    Emits s σ result.1 σ' ∧ s.AllowsValue σ' result.2 := by
  rw [keep_eq] at kept
  obtain ⟨rfl, rfl⟩ := Prod.mk.inj (Except.ok.inj kept)
  have le : s.names.length + (σ₁.temporaries + 1) ≤ s.names.length + σ₁.kept.peak :=
    Nat.add_le_add_left (Nat.le_max_right ..) _
  have saved : ∀ line ∈ [saveTo (s.names.length + (σ₁.temporaries + 1)) r], s.AllowsLine σ₁.kept line :=
    List.forall_mem_singleton.2 (Scope.allowsLine_saveTo (Nat.le_succ_of_le le) r)
  exact ⟨h.append (of_instructions rfl σ₁.within_kept.peak saved), le⟩

end Emits

/-! ## Expressions -/

variable {s : Scope} {σ σ' : Supply}

mutual

/-- **The code of an expression** refers to what is there, if its texts are. -/
theorem Expression.emits (e : Expression) {σ σ' : Supply} {result : List Line × Value}
    (texts : ∀ text ∈ e.texts, text ∈ s.constants) (done : e.compile s σ = .ok (result, σ')) :
    Emits s σ result.1 σ' ∧ s.AllowsValue σ' result.2 := by
  cases e with
  | integer n span =>
    obtain ⟨rfl, rfl⟩ := Expression.compile_integer done
    exact ⟨.nil, trivial⟩
  | text text =>
    rw [Expression.compile_text] at done
    obtain ⟨rfl, rfl⟩ := Prod.mk.inj (Emit.pure_eq_ok.1 done)
    exact ⟨.nil, List.idxOf_lt_length_of_mem (texts text (by simp [Expression.texts]))⟩
  | «variable» name span =>
    obtain ⟨mem, rfl, rfl⟩ := Expression.compile_variable done
    exact ⟨.nil, Nat.le_add_right_of_le (slotOf_le mem)⟩
  | negate e =>
    obtain ⟨code, value, σ₁, compiled, ⟨k, -, rfl, rfl⟩ | kept⟩ := Expression.compile_negate done
    · exact ⟨(e.emits texts compiled).1, trivial⟩
    · obtain ⟨emits, allowed⟩ := e.emits texts compiled
      have sub : s.AllowsLine σ₁ (line "sub" [Register.t0, Register.zero, Register.t1]) :=
        ⟨.inr (.inr ⟨by decide, rfl⟩), rfl, by simp [Scope.Allows]⟩
      exact (emits.instructions (List.forall_mem_cons.2 ⟨Scope.allowsLine_load allowed .t1,
        List.forall_mem_singleton.2 sub⟩)).keep kept
  | isZero e =>
    obtain ⟨code, value, σ₁, compiled, ⟨k, -, rfl, rfl⟩ | kept⟩ := Expression.compile_isZero done
    · exact ⟨(e.emits texts compiled).1, trivial⟩
    · obtain ⟨emits, allowed⟩ := e.emits texts compiled
      have not : s.AllowsLine σ₁ (line "not" [Register.t0, Register.t1]) :=
        ⟨.inr (.inl ⟨by decide, rfl⟩), rfl, by simp [Scope.Allows]⟩
      exact (emits.instructions (List.forall_mem_cons.2 ⟨Scope.allowsLine_load allowed .t1,
        List.forall_mem_singleton.2 not⟩)).keep kept
  | binary op left right span =>
    rw [Expression.texts, List.forall_mem_append] at texts
    obtain ⟨code, a, σ₁, code', b, σ₂, first, second, -, ⟨value, folded, rfl, rfl⟩ | kept⟩ :=
      Expression.compile_binary done
    · obtain ⟨-, -, k, -, -, rfl, -⟩ := Operator.operands_of_fold? folded
      exact ⟨(left.emits texts.1 first).1.append (right.emits texts.2 second).1, trivial⟩
    · obtain ⟨emits, allowed⟩ := left.emits texts.1 first
      obtain ⟨emits', allowed'⟩ := right.emits texts.2 second
      exact ((emits.append emits').instructions
        (Scope.allowsLine_operator op (allowed.mono emits'.peak) allowed')).keep kept
  | call callee arguments span =>
    obtain ⟨code, values, σ₁, arity, compiled, ⟨host, known, kept⟩ | ⟨unknown, kept⟩⟩ :=
      Expression.compile_call done
    · obtain ⟨emits, allowed⟩ := emitsAll arguments texts compiled
      exact (emits.instructions (Scope.allowsLine_host host allowed)).keep kept
    · obtain ⟨emits, allowed⟩ := emitsAll arguments texts compiled
      -- the function is one of the program, so the label that is called is there
      have known := Scope.lookup_of_arity arity unknown
      exact (emits.append (.call (by rw [known]; rfl) allowed)).keep kept
  | load base offset span =>
    obtain ⟨small, code, value, σ₁, compiled, kept⟩ := Expression.compile_load done
    obtain ⟨emits, allowed⟩ := base.emits texts compiled
    have reads : s.AllowsLine σ₁ (line "load" [Register.t0, Register.t1, .int offset]) :=
      ⟨.inr (.inr ⟨by decide, rfl⟩), rfl, by simpa [Scope.Allows] using Scope.allows_offset small⟩
    exact (emits.instructions (List.forall_mem_cons.2 ⟨Scope.allowsLine_load allowed .t1,
      List.forall_mem_singleton.2 reads⟩)).keep kept
  | broken before defect span => exact absurd done Expression.compile_broken_ne

theorem emitsAll (es : List Expression) {σ σ' : Supply} {result : List Line × List Value}
    (texts : ∀ text ∈ textsAll es, text ∈ s.constants) (done : compileAll s es σ = .ok (result, σ')) :
    Emits s σ result.1 σ' ∧ ∀ value ∈ result.2, s.AllowsValue σ' value := by
  cases es with
  | nil =>
    obtain ⟨rfl, rfl⟩ := compileAll_nil done
    exact ⟨.nil, nofun⟩
  | cons e es =>
    obtain ⟨code, value, σ₁, rest, values, first, others, rfl⟩ := compileAll_cons done
    rw [textsAll, List.forall_mem_append] at texts
    obtain ⟨emits, allowed⟩ := e.emits texts.1 first
    obtain ⟨emits', allowed'⟩ := emitsAll es texts.2 others
    exact ⟨emits.append emits', List.forall_mem_cons.2 ⟨allowed.mono emits'.peak, allowed'⟩⟩

end

/-! ## Statements -/

namespace Emits

variable {s : Scope} {σ σ' : Supply} {code : List Line}

/-- A statement starts with the temporaries released, which makes no difference here. -/
theorem released (h : Emits s σ.released code σ') : Emits s σ code σ' :=
  ⟨h.grows, h.peak, h.labels, h.lines⟩

/-- The label that was given out first, and then code. -/
theorem labelFirst (h : Emits s σ.labeled code σ') : Emits s σ (place (numbered σ.labels) :: code) σ' where
  grows := Nat.le_of_succ_le h.grows
  peak := h.peak
  labels := by
    rw [numberedFrom_cons h.grows]
    exact h.labels.cons _
  lines := List.forall_mem_cons.2 ⟨nofun, h.lines⟩

/-- An instruction more. -/
theorem insert {x : Line} {before after : List Line} (h : Emits s σ (before ++ after) σ')
    (allowed : s.AllowsLine σ' x) : Emits s σ (before ++ x :: after) σ' where
  grows := h.grows
  peak := h.peak
  labels := by
    have same : labelsOf (before ++ x :: after) = labelsOf (before ++ after) := by
      rw [Assembly.labelsOf_append, Assembly.labelsOf_append, labelsOf, labelsOf, labelsOf,
        List.filterMap_cons_none allowed.label?_eq_none]
    rw [same]
    exact h.labels
  lines y mem none := by
    rw [List.mem_append, List.mem_cons] at mem
    rcases mem with mem | rfl | mem
    · exact h.lines y (List.mem_append_left _ mem) none
    · exact allowed
    · exact h.lines y (List.mem_append_right _ mem) none

end Emits

mutual

/-- **The code of a statement** refers to what is there, if the texts in it are. -/
theorem Statement.emits (b : Statement) {σ σ' : Supply} {code : List Line}
    (texts : ∀ e ∈ b.expressions, ∀ text ∈ e.texts, text ∈ s.constants)
    (done : b.compile s σ = .ok (code, σ')) : Emits s σ code σ' := by
  cases b with
  | block body =>
    exact (emitsBlock body texts (Statement.compile_block done)).released
  | whileLoop condition body =>
    obtain ⟨start, ending, test, value, σ₁, inner, tested, compiled, rfl, rfl, rfl⟩ :=
      Statement.compile_whileLoop done
    obtain ⟨first, others⟩ := List.forall_mem_cons.1 texts
    obtain ⟨emits, allowed⟩ := condition.emits first tested
    have emits' := body.emits others compiled
    -- both labels were given out before the test, and the second one comes last
    have target : s.Allows σ₁ (.label (numbered (σ.labels + 1))) := .inr (.inl ⟨_, emits.grows, rfl⟩)
    have repeats : s.Allows σ' (.label (numbered σ.labels)) :=
      .inr (.inl ⟨_, Nat.lt_of_lt_of_le (Nat.lt_succ_self _)
        (Nat.le_of_succ_le (Nat.le_trans emits.grows emits'.grows)), rfl⟩)
    have inside := ((emits.instructions (Scope.allowsLine_jumpUnless allowed target)).append emits').instructions
      (List.forall_mem_singleton.2 (Scope.allowsLine_jumpv repeats))
    have whole := (inside.label (σ := σ.released.labeled)).labelFirst.released
    simpa [Supply.released, Supply.labeled] using whole
  | ifThen condition positive =>
    obtain ⟨otherwise, test, value, σ₁, inner, tested, compiled, rfl, rfl⟩ :=
      Statement.compile_ifThen done
    obtain ⟨first, others⟩ := List.forall_mem_cons.1 texts
    obtain ⟨emits, allowed⟩ := condition.emits first tested
    have emits' := positive.emits others compiled
    have target : s.Allows σ₁ (.label (numbered σ.labels)) := .inr (.inl ⟨_, emits.grows, rfl⟩)
    exact (((emits.instructions (Scope.allowsLine_jumpUnless allowed target)).append emits').label).released
  | ifElse condition positive negative =>
    obtain ⟨otherwise, ending, test, value, σ₁, first, σ₂, second, tested, compiled, compiled', rfl,
      rfl, rfl⟩ := Statement.compile_ifElse done
    obtain ⟨firstTexts, others⟩ := List.forall_mem_cons.1 texts
    rw [List.forall_mem_append] at others
    obtain ⟨emits, allowed⟩ := condition.emits firstTexts tested
    have emits₁ := positive.emits others.1 compiled
    have emits₂ := negative.emits others.2 compiled'
    have target : s.Allows σ₁ (.label (numbered σ.labels)) := .inr (.inl ⟨_, emits.grows, rfl⟩)
    have past : s.Allows σ' (.label (numbered σ₂.labels)) := .inr (.inl ⟨_, emits₂.grows, rfl⟩)
    have before := ((emits.instructions (Scope.allowsLine_jumpUnless allowed target)).append emits₁).label
    -- the jump over the second part refers to the label behind it
    have whole := (before.append emits₂.label).released
    rw [List.append_assoc] at whole
    simpa [Supply.released] using whole.insert (Scope.allowsLine_jumpv past)
  | ret value =>
    cases value with
    | none =>
      obtain ⟨rfl, rfl⟩ := Statement.compile_ret_none done
      have known : s.AllowsValue σ (.int 0) := trivial
      have zero := Scope.allowsLine_load known .a0
      have lines := List.forall_mem_cons.2 ⟨zero,
        List.forall_mem_singleton.2 (Scope.allowsLine_jumpv (.inl rfl))⟩
      exact Emits.released (Emits.nil.instructions lines)
    | some e =>
      obtain ⟨inner, value, compiled, rfl⟩ := Statement.compile_ret_some done
      obtain ⟨emits, allowed⟩ := e.emits (List.forall_mem_singleton.1 texts) compiled
      exact (emits.instructions (List.forall_mem_cons.2 ⟨Scope.allowsLine_load allowed .a0,
        List.forall_mem_singleton.2 (Scope.allowsLine_jumpv (.inl rfl))⟩)).released
  | assign target e =>
    obtain ⟨inner, value, compiled, rfl⟩ := Statement.compile_assign done
    obtain ⟨emits, allowed⟩ := e.emits (List.forall_mem_singleton.1 texts) compiled
    have slot : s.slot target ≤ s.names.length + σ'.peak + 1 := by
      have le : s.names.idxOf target ≤ s.names.length := List.idxOf_le_length
      unfold Scope.slot
      omega
    exact (emits.instructions (List.forall_mem_cons.2 ⟨Scope.allowsLine_load allowed .t0,
      List.forall_mem_singleton.2 (Scope.allowsLine_saveTo slot .t0)⟩)).released
  | store base offset span e =>
    obtain ⟨small, first, address, σ₁, second, value, compiled, compiled', rfl⟩ :=
      Statement.compile_store done
    obtain ⟨texts, texts'⟩ := List.forall_mem_cons.1 texts
    obtain ⟨emits, allowed⟩ := base.emits texts compiled
    obtain ⟨emits', allowed'⟩ := e.emits (List.forall_mem_singleton.1 texts') compiled'
    have writes : s.AllowsLine σ' (line "store" [Register.t1, Register.t0, .int offset]) :=
      ⟨.inr (.inr ⟨by decide, rfl⟩), rfl, by simpa [Scope.Allows] using Scope.allows_offset small⟩
    exact ((emits.append emits').instructions (List.forall_mem_cons.2
      ⟨Scope.allowsLine_load (allowed.mono emits'.peak) .t0, List.forall_mem_cons.2
        ⟨Scope.allowsLine_load allowed' .t1, List.forall_mem_singleton.2 writes⟩⟩)).released
  | call e =>
    obtain ⟨value, compiled⟩ := Statement.compile_call done
    exact (e.emits (List.forall_mem_singleton.1 texts) compiled).1.released
  | skip =>
    obtain ⟨rfl, rfl⟩ := Statement.compile_skip done
    exact Emits.nil.released
  | broken before defect span => exact absurd done Statement.compile_broken_ne

theorem emitsBlock (bs : List Statement) {σ σ' : Supply} {code : List Line}
    (texts : ∀ e ∈ expressionsAll bs, ∀ text ∈ e.texts, text ∈ s.constants)
    (done : compileBlock s bs σ = .ok (code, σ')) : Emits s σ code σ' := by
  cases bs with
  | nil =>
    obtain ⟨rfl, rfl⟩ := compileBlock_nil done
    exact .nil
  | cons b bs =>
    obtain ⟨first, σ₁, rest, compiled, compiled', rfl⟩ := compileBlock_cons done
    rw [expressionsAll, List.forall_mem_append] at texts
    exact (b.emits texts.1 compiled).append (emitsBlock bs texts.2 compiled')

end

end Polyglot.B
