import Polyglot.Proofs.B.Slots

/-!
# Slots that are read without being written

In a function that does not assign a variable on all paths before it reads it, there is a way
to the line that reads its slot on which nothing was written there. So the functions that
are safe from this are those that can be seen to be (`Function.definite_of_safe`).

A way that has not written to the slot of a variable goes on through the code of an expression,
which writes only to temporaries (`Expression.passes`), and through a statement unless the
statement assigns the variable on all paths (`Statement.definite_of_safe`).
-/

namespace Polyglot.B

open Polyglot.Assembly (Line Listing Command Operand)
open Polyglot.Machine (Register Syscall)

/-- Whether there is a way to a line that has not written at a distance. -/
def Missing (l : Listing) (first : Nat) (distance : Int) (k : Nat) : Prop :=
  ∃ written, Way l first k written ∧ distance ∉ written

/-- Whether a slot of a name is only read on ways that have written it. -/
def Safe (l : Listing) (first : Nat) (names : List String) : Prop :=
  ∀ k written r, Way l first k written → ∀ name ∈ names,
    l.Orders k (.load r .sp (distanceOf names name)) → distanceOf names name ∈ written

/-- Whether the variables that are not known may not have been written. -/
def Unknown (l : Listing) (first : Nat) (names : List String) (known : Known) (k : Nat) : Prop :=
  ∀ name ∈ names, known name = false → Missing l first (distanceOf names name) k

/-- Whether code writes to no slot of a variable, wherever it stands. -/
def Passes (l : Listing) (first : Nat) (names : List String) (code : List Line) : Prop :=
  ∀ k, l.Contains k code → ∀ name ∈ names, Missing l first (distanceOf names name) k →
    Missing l first (distanceOf names name) (k + code.length)

section

variable {l : Listing} {first k m : Nat} {distance : Int} {name : String} {c : Command}

namespace Missing

theorem label (h : Missing l first distance k) (there : l.Marks k name) :
    Missing l first distance (k + 1) := by
  obtain ⟨written, way, missing⟩ := h
  exact ⟨written, way.label there, missing⟩

theorem next (h : Missing l first distance k) (orders : l.Orders k c) (stays : ¬ Ends c)
    (other : distance ∉ stored c) : Missing l first distance (k + 1) := by
  obtain ⟨written, way, missing⟩ := h
  exact ⟨_, way.next orders stays, fun mem => (List.mem_append.1 mem).elim other missing⟩

theorem jump (h : Missing l first distance k) (orders : l.Orders k c) (reaches : Reaches c name)
    (there : l.Marks m name) : Missing l first distance m := by
  obtain ⟨written, way, missing⟩ := h
  exact ⟨written, way.jump orders reaches there, missing⟩

end Missing

variable {names : List String} {known : Known} {code code' : List Line} {value left right : Value}
  {r : Register}

theorem Unknown.passed (h : Unknown l first names known k) (passes : Passes l first names code)
    (contains : l.Contains k code) : Unknown l first names known (k + code.length) :=
  fun name mem is => passes k contains name mem (h name mem is)

namespace Passes

theorem nil : Passes l first names [] := fun _ _ _ _ missing => missing

theorem append (h : Passes l first names code) (h' : Passes l first names code') :
    Passes l first names (code ++ code') := by
  intro k contains name mem missing
  rw [Listing.contains_append] at contains
  rw [List.length_append, ← Nat.add_assoc]
  exact h' _ contains.2 name mem (h k contains.1 name mem missing)

theorem label (name : String) : Passes l first names [place name] :=
  fun _ contains _ _ missing => missing.label ⟨_, (Listing.contains_cons.1 contains).1⟩

/-- An instruction that writes to no slot of a variable. -/
theorem instruction {mnemonic : String} {operands : List Operand}
    (checked : Command.ofLine mnemonic operands .start = .ok c) (stays : ¬ Ends c)
    (other : ∀ name ∈ names, distanceOf names name ∉ stored c) :
    Passes l first names [line mnemonic operands] :=
  fun _ contains name mem missing =>
    missing.next ⟨_, _, _, (Listing.contains_cons.1 contains).1, checked⟩ stays (other name mem)

theorem load (value : Value) (r : Register) : Passes l first names [value.load r] := by
  cases value with
  | slot n => exact instruction (c := .load r .sp (4 * n)) rfl id fun _ _ => List.not_mem_nil
  | int value => exact instruction (c := .put r (.int value.toInt)) rfl id fun _ _ => List.not_mem_nil
  | constant index => exact instruction (c := .put r (.constant index)) rfl id fun _ _ => List.not_mem_nil

theorem loads (registers : List Register) (values : List Value) :
    Passes l first names (List.zipWith Value.load registers values) := by
  induction registers generalizing values with
  | nil => exact nil
  | cons r registers ih =>
    cases values with
    | nil => exact nil
    | cons value values => exact (load value r).append (ih values)

/-- What is not the slot of a name may be written. -/
theorem saveTo {n : Nat} (outside : n = 0 ∨ names.length < n) (r : Register) :
    Passes l first names [saveTo n r] := by
  refine instruction (c := .store r .sp (4 * n)) rfl id fun name mem among => ?_
  have le := slotOf_le mem
  have same := List.mem_singleton.1 among
  unfold distanceOf at same
  have pos : 0 < slotOf names name := Nat.succ_pos _
  omega

theorem operator (op : Operator) (left right : Value) : Passes l first names (op.lines left right) := by
  have registers : Passes l first names
      [line op.mnemonic [Register.t0, Register.t1, Register.t2]] :=
    instruction (op.ofLine_mnemonic .t0 .t1 .t2) id fun _ _ => List.not_mem_nil
  have withValue (value : Int) : Passes l first names
      [line (op.mnemonic ++ "v") [Register.t0, Register.t1, .int value]] :=
    instruction (op.ofLine_mnemonic_with .t0 .t1 value) id fun _ _ => List.not_mem_nil
  cases right with
  | int value => exact (load left .t1).append (withValue _)
  | slot | constant => exact (load left .t1).append ((load _ .t2).append registers)

theorem host (call : Syscall) (values : List Value) :
    Passes l first names (Scope.hostLines call values) :=
  (loads _ _).append (instruction (c := .sysOf call.number) rfl id fun _ _ => List.not_mem_nil)

theorem call (callee back : String) (values : List Value) :
    Passes l first names (Scope.callLines callee back values) := by
  have address : Passes l first names [line "setv" [Register.ra, .label back]] :=
    instruction (c := .put .ra (.label back)) rfl id fun _ _ => List.not_mem_nil
  have jump : Passes l first names [line "jumpv" [.label (functionLabel callee)]] :=
    instruction (c := .jumpTo (.label (functionLabel callee))) rfl (fun ends => ends callee rfl)
      fun _ _ => List.not_mem_nil
  exact (loads _ _).append (address.append (jump.append (label back)))

theorem keep {s : Scope} {σ σ' : Supply} {result : List Line × Value}
    (h : Passes l first s.names code) (kept : s.keep code r σ = .ok (result, σ')) :
    Passes l first s.names result.1 := by
  rw [keep_eq] at kept
  obtain ⟨rfl, -⟩ := Prod.mk.inj (Except.ok.inj kept)
  exact h.append (saveTo (.inr (by omega)) r)

end Passes

end

/-! ## Expressions -/

section

variable {l : Listing} {first : Nat} {s : Scope}

mutual

/-- **The code of an expression** writes only to temporaries. -/
theorem Expression.passes (e : Expression) {σ σ' : Supply} {result : List Line × Value}
    (done : e.compile s σ = .ok (result, σ')) : Passes l first s.names result.1 := by
  cases e with
  | integer n span =>
    obtain ⟨rfl, rfl⟩ := Expression.compile_integer done
    exact .nil
  | text text =>
    rw [Expression.compile_text] at done
    obtain ⟨rfl, rfl⟩ := Prod.mk.inj (Emit.pure_eq_ok.1 done)
    exact .nil
  | «variable» name span =>
    obtain ⟨-, rfl, rfl⟩ := Expression.compile_variable done
    exact .nil
  | negate e =>
    obtain ⟨code, value, σ₁, compiled, ⟨k, -, rfl, rfl⟩ | kept⟩ := Expression.compile_negate done
    all_goals have inner := e.passes compiled
    · exact inner
    · exact (inner.append ((Passes.load value .t1).append
        (.instruction (c := .compute ⟨.sub, false⟩ .t0 .zero .t1) rfl id
          fun _ _ => List.not_mem_nil))).keep kept
  | isZero e =>
    obtain ⟨code, value, σ₁, compiled, ⟨k, -, rfl, rfl⟩ | kept⟩ := Expression.compile_isZero done
    all_goals have inner := e.passes compiled
    · exact inner
    · exact (inner.append ((Passes.load value .t1).append
        (.instruction (c := .isZero .t0 .t1) rfl id fun _ _ => List.not_mem_nil))).keep kept
  | binary op left right span =>
    obtain ⟨code, a, σ₁, code', b, σ₂, first, second, -, ⟨value, -, rfl, rfl⟩ | kept⟩ :=
      Expression.compile_binary done
    · exact (left.passes first).append (right.passes second)
    · exact (((left.passes first).append (right.passes second)).append (.operator op a b)).keep kept
  | call callee arguments span =>
    obtain ⟨code, values, σ₁, -, compiled, ⟨host, -, kept⟩ | ⟨-, kept⟩⟩ := Expression.compile_call done
    · exact ((passesAll arguments compiled).append (.host host values)).keep kept
    · exact ((passesAll arguments compiled).append (.call callee _ values)).keep kept
  | load base offset span =>
    obtain ⟨-, code, value, σ₁, compiled, kept⟩ := Expression.compile_load done
    exact ((base.passes compiled).append ((Passes.load value .t1).append
      (.instruction (c := .load .t0 .t1 offset) rfl id fun _ _ => List.not_mem_nil))).keep kept
  | broken before defect span => exact absurd done Expression.compile_broken_ne

theorem passesAll (es : List Expression) {σ σ' : Supply} {result : List Line × List Value}
    (done : compileAll s es σ = .ok (result, σ')) : Passes l first s.names result.1 := by
  cases es with
  | nil =>
    obtain ⟨rfl, rfl⟩ := compileAll_nil done
    exact .nil
  | cons e es =>
    obtain ⟨code, value, σ₁, rest, values, first, others, rfl⟩ := compileAll_cons done
    exact (e.passes first).append (passesAll es others)

end

variable {known : Known} {k : Nat}

/-- A value that is loaded where the variables that are not known may not have been written is
none of them. -/
theorem within_of_load {names : List String} {value : Value} {r : Register}
    (safe : Safe l first names) (unknown : Unknown l first names known k)
    (loads : l.lines[k]? = some (value.load r)) : value.Within (readable names known) := by
  cases value with
  | slot n =>
    intro name mem same
    by_contra is
    obtain ⟨written, way, missing⟩ := unknown name mem (Bool.not_eq_true _ ▸ is)
    refine missing (safe k written r way name mem ?_)
    rw [← same]
    exact ⟨_, _, _, loads, rfl⟩
  | int | constant => trivial

theorem within_of_loads {names : List String} {values : List Value} {registers : List Register}
    (safe : Safe l first names) (unknown : Unknown l first names known k)
    (contains : l.Contains k (List.zipWith Value.load registers values))
    (few : values.length ≤ registers.length) :
    ∀ value ∈ values, value.Within (readable names known) := by
  induction values generalizing registers k with
  | nil => exact List.forall_mem_nil _
  | cons value values ih =>
    cases registers with
    | nil => cases few
    | cons r registers =>
      rw [List.zipWith_cons_cons, Listing.contains_cons] at contains
      have alone : l.Contains k [value.load r] :=
        Listing.contains_cons.2 ⟨contains.1, Listing.contains_nil⟩
      exact List.forall_mem_cons.2 ⟨within_of_load safe unknown contains.1,
        ih (unknown.passed (.load value r) alone) contains.2 (Nat.le_of_succ_le_succ few)⟩

/-- The operands of an operator are loaded one after the other. -/
theorem within_of_operator {names : List String} {op : Operator} {left right : Value}
    (safe : Safe l first names) (unknown : Unknown l first names known k)
    (contains : l.Contains k (op.lines left right)) :
    left.Within (readable names known) ∧ right.Within (readable names known) := by
  have alone (there : l.lines[k]? = some (left.load .t1)) : l.Contains k [left.load .t1] :=
    Listing.contains_cons.2 ⟨there, Listing.contains_nil⟩
  cases right with
  | int value =>
    exact ⟨within_of_load safe unknown (Listing.contains_cons.1 contains).1, trivial⟩
  | slot | constant =>
    obtain ⟨first, second⟩ := Listing.contains_cons.1 contains
    exact ⟨within_of_load safe unknown first, within_of_load safe
      (unknown.passed (.load left .t1) (alone first)) (Listing.contains_cons.1 second).1⟩

mutual

/-- **An expression** whose code reads only slots that were written reads only variables that
are known, provided its value is none of the others. -/
theorem Expression.definite_of_safe (safe : Safe l first s.names)
    (few : ∀ name count, s.arities.lookup name = some count → count ≤ maxParameters)
    (e : Expression) {k : Nat} {σ σ' : Supply} {result : List Line × Value}
    (done : e.compile s σ = .ok (result, σ')) (contains : l.Contains k result.1)
    (unknown : Unknown l first s.names known k)
    (within : result.2.Within (readable s.names known)) : e.definite known := by
  cases e with
  | integer | text => rfl
  | «variable» name span =>
    obtain ⟨mem, rfl, rfl⟩ := Expression.compile_variable done
    exact within name mem rfl
  | negate e =>
    obtain ⟨code, value, σ₁, compiled, ⟨k, rfl, rfl, rfl⟩ | kept⟩ := Expression.compile_negate done
    · exact e.definite_of_safe safe few compiled contains unknown trivial
    · obtain ⟨rfl, rfl⟩ := Prod.mk.inj (Except.ok.inj kept)
      simp only [Listing.contains_append, Listing.contains_cons] at contains
      exact e.definite_of_safe safe few compiled contains.1.1 unknown (within_of_load safe
        (unknown.passed (e.passes compiled) contains.1.1) contains.1.2.1)
  | isZero e =>
    obtain ⟨code, value, σ₁, compiled, ⟨k, rfl, rfl, rfl⟩ | kept⟩ := Expression.compile_isZero done
    · exact e.definite_of_safe safe few compiled contains unknown trivial
    · obtain ⟨rfl, rfl⟩ := Prod.mk.inj (Except.ok.inj kept)
      simp only [Listing.contains_append, Listing.contains_cons] at contains
      exact e.definite_of_safe safe few compiled contains.1.1 unknown (within_of_load safe
        (unknown.passed (e.passes compiled) contains.1.1) contains.1.2.1)
  | binary op left right span =>
    rw [Expression.definite, Bool.and_eq_true]
    obtain ⟨code, a, σ₁, code', b, σ₂, first, second, -, ⟨value, folded, rfl, rfl⟩ | kept⟩ :=
      Expression.compile_binary done
    · obtain ⟨_, _, _, rfl, rfl, -, -⟩ := Operator.operands_of_fold? folded
      rw [Listing.contains_append] at contains
      have unknown' := unknown.passed (left.passes first) contains.1
      exact ⟨left.definite_of_safe safe few first contains.1 unknown trivial,
        right.definite_of_safe safe few second contains.2 unknown' trivial⟩
    · obtain ⟨rfl, rfl⟩ := Prod.mk.inj (Except.ok.inj kept)
      rw [Listing.contains_append, Listing.contains_append, Listing.contains_append] at contains
      obtain ⟨⟨⟨inLeft, inRight⟩, inLines⟩, -⟩ := contains
      have unknown' := unknown.passed (left.passes first) inLeft
      have unknown'' := unknown.passed ((left.passes first).append (right.passes second))
        (Listing.contains_append.2 ⟨inLeft, inRight⟩)
      obtain ⟨within, within'⟩ := within_of_operator safe unknown'' inLines
      exact ⟨left.definite_of_safe safe few first inLeft unknown within,
        right.definite_of_safe safe few second inRight unknown' within'⟩
  | call callee arguments span =>
    obtain ⟨code, values, σ₁, arity, compiled, ⟨host, known, kept⟩ | ⟨unnamed, kept⟩⟩ :=
      Expression.compile_call done
    · obtain ⟨rfl, rfl⟩ := Prod.mk.inj (Except.ok.inj kept)
      rw [Listing.contains_append, Listing.contains_append, Scope.hostLines,
        Listing.contains_append] at contains
      obtain ⟨⟨inside, loads, -⟩, -⟩ := contains
      -- a call of the host has one argument, so there is a register for it
      have one : values.length = 1 := by
        rw [compileAll_length compiled]
        unfold Scope.arity at arity
        rw [known] at arity
        exact (Except.ok.inj arity).symm
      exact definiteAll_of_safe safe few arguments compiled inside unknown (within_of_loads safe
        (unknown.passed (passesAll arguments compiled) inside) loads (Nat.le_of_eq one))
    · obtain ⟨rfl, rfl⟩ := Prod.mk.inj (Except.ok.inj kept)
      rw [Listing.contains_append, Listing.contains_append, Scope.callLines,
        Listing.contains_append] at contains
      obtain ⟨⟨inside, ⟨loads, -⟩⟩, -⟩ := contains
      have small := few callee _ (Scope.lookup_of_arity arity unnamed)
      exact definiteAll_of_safe safe few arguments compiled inside unknown (within_of_loads safe
        (unknown.passed (passesAll arguments compiled) inside) loads
          ((compileAll_length compiled).trans_le small))
  | load base offset span =>
    obtain ⟨-, code, value, σ₁, compiled, kept⟩ := Expression.compile_load done
    obtain ⟨rfl, rfl⟩ := Prod.mk.inj (Except.ok.inj kept)
    simp only [Listing.contains_append, Listing.contains_cons] at contains
    exact base.definite_of_safe safe few compiled contains.1.1 unknown (within_of_load safe
      (unknown.passed (base.passes compiled) contains.1.1) contains.1.2.1)
  | broken before defect span => exact absurd done Expression.compile_broken_ne

theorem definiteAll_of_safe (safe : Safe l first s.names)
    (few : ∀ name count, s.arities.lookup name = some count → count ≤ maxParameters)
    (es : List Expression) {k : Nat} {σ σ' : Supply} {result : List Line × List Value}
    (done : compileAll s es σ = .ok (result, σ')) (contains : l.Contains k result.1)
    (unknown : Unknown l first s.names known k)
    (within : ∀ value ∈ result.2, value.Within (readable s.names known)) : definiteAll known es := by
  cases es with
  | nil => rfl
  | cons e es =>
    obtain ⟨code, value, σ₁, rest, values, first, others, rfl⟩ := compileAll_cons done
    obtain ⟨within, within'⟩ := List.forall_mem_cons.1 within
    rw [Listing.contains_append] at contains
    rw [definiteAll, Bool.and_eq_true]
    exact ⟨e.definite_of_safe safe few first contains.1 unknown within,
      definiteAll_of_safe safe few es others contains.2
        (unknown.passed (e.passes first) contains.1) within'⟩

end

/-- What is no variable is none that is not known. -/
theorem Expression.within_of_compile (e : Expression) (ne : ∀ name span, e ≠ .variable name span)
    {σ σ' : Supply} {result : List Line × Value} (done : e.compile s σ = .ok (result, σ')) :
    result.2.Within (readable s.names known) := by
  -- a temporary has its slot behind those of all variables
  have kept {code : List Line} {r : Register} {σ₁ : Supply}
      (kept : s.keep code r σ₁ = .ok (result, σ')) : result.2.Within (readable s.names known) := by
    obtain ⟨rfl, -⟩ := Prod.mk.inj (Except.ok.inj kept)
    exact mem_readable_of_outside (.inr (by omega))
  cases e with
  | integer n span =>
    obtain ⟨rfl, -⟩ := Expression.compile_integer done
    trivial
  | text text =>
    rw [Expression.compile_text] at done
    obtain ⟨rfl, -⟩ := Prod.mk.inj (Emit.pure_eq_ok.1 done)
    trivial
  | «variable» name span => exact absurd rfl (ne name span)
  | negate e =>
    obtain ⟨_, _, _, -, ⟨k, -, rfl, -⟩ | last⟩ := Expression.compile_negate done
    · trivial
    · exact kept last
  | isZero e =>
    obtain ⟨_, _, _, -, ⟨k, -, rfl, -⟩ | last⟩ := Expression.compile_isZero done
    · trivial
    · exact kept last
  | binary op left right span =>
    obtain ⟨_, _, _, _, _, _, -, -, -, ⟨value, folded, rfl, -⟩ | last⟩ := Expression.compile_binary done
    · obtain ⟨-, -, k, -, -, rfl, -⟩ := Operator.operands_of_fold? folded
      trivial
    · exact kept last
  | call callee arguments span =>
    obtain ⟨_, _, _, -, -, ⟨_, -, last⟩ | ⟨-, last⟩⟩ := Expression.compile_call done
    · exact kept last
    · exact kept last
  | load base offset span =>
    obtain ⟨-, _, _, _, -, last⟩ := Expression.compile_load done
    exact kept last
  | broken before defect span => exact absurd done Expression.compile_broken_ne

/-- An expression whose value is loaded right after its code. -/
theorem Expression.definite_of_loaded (safe : Safe l first s.names)
    (few : ∀ name count, s.arities.lookup name = some count → count ≤ maxParameters)
    (e : Expression) {σ σ' : Supply} {code : List Line} {value : Value} {r : Register}
    (done : e.compile s σ = .ok ((code, value), σ')) (inside : l.Contains k code)
    (loads : l.lines[k + code.length]? = some (value.load r))
    (unknown : Unknown l first s.names known k) :
    e.definite known ∧ Unknown l first s.names known (k + code.length + 1) := by
  have unknown' := unknown.passed (e.passes done) inside
  have here : l.Contains (k + code.length) [value.load r] :=
    Listing.contains_cons.2 ⟨loads, Listing.contains_nil⟩
  exact ⟨e.definite_of_safe safe few done inside unknown (within_of_load safe unknown' loads),
    unknown'.passed (.load value r) here⟩

/-! ## Statements -/

mutual

/-- Whether no variable stands alone as if it were a call. -/
def Statement.callsAlone : Statement → Prop
  | .block body => callsAloneAll body
  | .whileLoop _ body => body.callsAlone
  | .ifThen _ positive => positive.callsAlone
  | .ifElse _ positive negative => positive.callsAlone ∧ negative.callsAlone
  | .call e => ∀ name span, e ≠ .variable name span
  | .ret _ | .assign .. | .store .. | .skip | .broken .. => True

/-- Whether no variable stands alone in some statements as if it were a call. -/
def callsAloneAll : List Statement → Prop
  | [] => True
  | b :: bs => b.callsAlone ∧ callsAloneAll bs

end

namespace Unknown

variable {names : List String} {m : Nat} {name : String} {known' : Known}

theorem move (h : Unknown l first names known k) (same : k = m) : Unknown l first names known m :=
  same ▸ h

theorem mono (h : Unknown l first names known k) (le : known.Le known') :
    Unknown l first names known' k := by
  intro name mem is
  refine h name mem (Bool.not_eq_true _ ▸ fun is' => ?_)
  rw [le name is'] at is
  cases is

theorem label (h : Unknown l first names known k) (there : l.Marks k name) :
    Unknown l first names known (k + 1) := fun name mem is => (h name mem is).label there

/-- A jump goes to its label. -/
theorem jump (h : Unknown l first names known k)
    (jumps : l.lines[k]? = some (line "jumpv" [.label name]))
    (inside : ∀ callee, name ≠ functionLabel callee) (there : l.Marks m name) :
    Unknown l first names known m := by
  have orders : l.Orders k (.jumpTo (.label name)) := ⟨_, _, _, jumps, rfl⟩
  exact fun _ mem is => (h _ mem is).jump orders ⟨rfl, inside⟩ there

/-- A jump on a condition goes to its label, or the next line follows. -/
theorem branch {value : Value} (h : Unknown l first names known k)
    (contains : l.Contains k (jumpUnless value name)) (there : l.Marks m name) :
    Unknown l first names known m
      ∧ Unknown l first names known (k + (jumpUnless value name).length) := by
  have test : Passes l first names [line "eqv" [Register.t0, Register.t0, .int 0]] :=
    .instruction (c := .computeWith ⟨.eq, false⟩ .t0 .t0 0) rfl id fun _ _ => List.not_mem_nil
  have split : jumpUnless value name = ([value.load .t0] ++ [line "eqv" [Register.t0, Register.t0, .int 0]])
    ++ [line "jumpifv" [.label name, Register.t0]] := rfl
  rw [split] at contains ⊢
  obtain ⟨before, jumps⟩ := Listing.contains_append.1 contains
  have h' := h.passed ((Passes.load value .t0).append test) before
  have orders : l.Orders (k + 2) (.jumpToIf (.label name) .t0) :=
    ⟨_, _, _, (Listing.contains_cons.1 jumps).1, rfl⟩
  exact ⟨fun _ mem is => (h' _ mem is).jump orders rfl there,
    fun _ mem is => (h' _ mem is).next orders id List.not_mem_nil⟩

/-- On one of two paths, or on the other one. -/
theorem meet (h : Unknown l first names known k) (h' : Unknown l first names known' k) :
    Unknown l first names (known.meet known') k := by
  intro name mem is
  rcases Bool.and_eq_false_iff.1 is with is | is
  · exact h name mem is
  · exact h' name mem is

theorem all : Unknown l first names .all k := nofun

/-- What is assigned is known, and nothing else is. -/
theorem assign {target : String} {r : Register} (h : Unknown l first names known k)
    (saves : l.lines[k]? = some (saveTo (slotOf names target) r)) :
    Unknown l first names (known.add target) (k + 1) := by
  intro name mem is
  obtain ⟨ne, is⟩ := Bool.or_eq_false_iff.1 is
  have orders : l.Orders k (.store r .sp (4 * slotOf names target)) := ⟨_, _, _, saves, rfl⟩
  refine (h name mem is).next orders id fun among => ?_
  exact beq_eq_false_iff_ne.1 ne (distanceOf_inj mem (List.mem_singleton.1 among))

end Unknown

/-- A condition, and the lines that go to a label if it gives zero. -/
theorem Expression.definite_of_tested (safe : Safe l first s.names)
    (few : ∀ name count, s.arities.lookup name = some count → count ≤ maxParameters)
    (e : Expression) {σ σ' : Supply} {test : List Line} {value : Value} {m : Nat} {name : String}
    (done : e.compile s σ = .ok ((test, value), σ')) (inside : l.Contains k test)
    (jumps : l.Contains (k + test.length) (jumpUnless value name)) (there : l.Marks m name)
    (unknown : Unknown l first s.names known k) :
    e.definite known ∧ Unknown l first s.names known m
      ∧ Unknown l first s.names known (k + test.length + (jumpUnless value name).length) :=
  ⟨(e.definite_of_loaded safe few done inside (Listing.contains_cons.1 jumps).1 unknown).1,
    (unknown.passed (e.passes done) inside).branch jumps there⟩

mutual

/-- **A statement** whose code reads only slots that were written reads only variables that
are known, or that it has assigned on all paths before; and there are ways to its end on which
no others were written than those that are known then. -/
theorem Statement.definite_of_safe (safe : Safe l first s.names)
    (few : ∀ name count, s.arities.lookup name = some count → count ≤ maxParameters)
    (b : Statement) (alone : b.callsAlone) {known : Known} {k : Nat} {σ σ' : Supply}
    {code : List Line} (done : b.compile s σ = .ok (code, σ')) (contains : l.Contains k code)
    (unknown : Unknown l first s.names known k) :
    b.definite known ∧ Unknown l first s.names (b.after known) (k + code.length) := by
  cases b with
  | block body =>
    exact definiteBlock_of_safe safe few body alone (Statement.compile_block done) contains unknown
  | whileLoop condition body =>
    obtain ⟨start, ending, test, value, σ₁, inner, tested, compiled, rfl, rfl, rfl⟩ :=
      Statement.compile_whileLoop done
    simp only [List.append_assoc, List.cons_append, List.nil_append, Listing.contains_append,
      Listing.contains_cons, Listing.contains_nil, and_true] at contains
    obtain ⟨begins, inTest, jumps, inBody, -, ends⟩ := contains
    obtain ⟨definite, past, unknown'⟩ :=
      condition.definite_of_tested safe few tested inTest jumps ⟨_, ends⟩ (unknown.label ⟨_, begins⟩)
    have inner := body.definite_of_safe safe few alone compiled inBody unknown'
    rw [Statement.definite, Bool.and_eq_true]
    refine ⟨⟨definite, inner.1⟩, (past.label ⟨_, ends⟩).move ?_⟩
    simp only [List.length_append, List.length_cons, List.length_nil]
    omega
  | ifThen condition positive =>
    obtain ⟨otherwise, test, value, σ₁, inner, tested, compiled, rfl, rfl⟩ :=
      Statement.compile_ifThen done
    simp only [List.append_assoc, Listing.contains_append, Listing.contains_cons,
      Listing.contains_nil, and_true] at contains
    obtain ⟨inTest, jumps, inBody, ends⟩ := contains
    obtain ⟨definite, past, unknown'⟩ :=
      condition.definite_of_tested safe few tested inTest jumps ⟨_, ends⟩ unknown
    have inner := positive.definite_of_safe safe few alone compiled inBody unknown'
    rw [Statement.definite, Bool.and_eq_true]
    refine ⟨⟨definite, inner.1⟩, (past.label ⟨_, ends⟩).move ?_⟩
    simp only [List.length_append, List.length_cons, List.length_nil]
    omega
  | ifElse condition positive negative =>
    obtain ⟨otherwise, ending, test, value, σ₁, first, σ₂, second, tested, compiled, compiled', rfl,
      rfl, rfl⟩ := Statement.compile_ifElse done
    simp only [List.append_assoc, List.cons_append, List.nil_append, Listing.contains_append,
      Listing.contains_cons, Listing.contains_nil, and_true] at contains
    obtain ⟨inTest, jumps, inFirst, leaves, begins, inSecond, ends⟩ := contains
    obtain ⟨definite, other, unknown'⟩ :=
      condition.definite_of_tested safe few tested inTest jumps ⟨_, begins⟩ unknown
    obtain ⟨definite₁, after₁⟩ := positive.definite_of_safe safe few alone.1 compiled inFirst unknown'
    obtain ⟨definite₂, after₂⟩ :=
      negative.definite_of_safe safe few alone.2 compiled' inSecond (other.label ⟨_, begins⟩)
    simp only [Statement.definite, Bool.and_eq_true]
    -- both branches come to the label at the end, the first one by its jump
    have past := after₁.jump leaves (numbered_ne_functionLabel _) ⟨_, ends⟩
    refine ⟨⟨⟨definite, definite₁⟩, definite₂⟩, ((past.meet after₂).label ⟨_, ends⟩).move ?_⟩
    simp only [List.length_append, List.length_cons, List.length_nil]
    omega
  | ret value =>
    cases value with
    | none => exact ⟨rfl, .all⟩
    | some e =>
      obtain ⟨inner, value, compiled, rfl⟩ := Statement.compile_ret_some done
      obtain ⟨inside, lines⟩ := Listing.contains_append.1 contains
      exact ⟨(e.definite_of_loaded safe few compiled inside (Listing.contains_cons.1 lines).1 unknown).1,
        .all⟩
  | assign target e =>
    obtain ⟨inner, value, compiled, rfl⟩ := Statement.compile_assign done
    simp only [Listing.contains_append, Listing.contains_cons, Listing.contains_nil,
      and_true] at contains
    obtain ⟨inside, loads, saves⟩ := contains
    obtain ⟨definite, unknown'⟩ := e.definite_of_loaded safe few compiled inside loads unknown
    rw [List.length_append, ← Nat.add_assoc]
    exact ⟨definite, unknown'.assign saves⟩
  | store base offset span e =>
    obtain ⟨small, code₁, address, σ₁, code₂, value, compiled, compiled', rfl⟩ :=
      Statement.compile_store done
    simp only [Listing.contains_append, Listing.contains_cons, Listing.contains_nil,
      and_true] at contains
    obtain ⟨⟨inBase, inValue⟩, loads, loads', writes⟩ := contains
    have unknown' := unknown.passed (base.passes compiled) inBase
    have unknown'' := unknown'.passed (e.passes compiled') inValue
    rw [Nat.add_assoc, ← List.length_append] at unknown''
    -- the address is loaded first, after the code of the word
    have within := within_of_load safe unknown'' loads
    have unknown₁ := unknown''.passed (.load address .t0) (Listing.contains_cons.2 ⟨loads, Listing.contains_nil⟩)
    have within' := within_of_load safe unknown₁ loads'
    have unknown₂ := unknown₁.passed (.load value .t1) (Listing.contains_cons.2 ⟨loads', Listing.contains_nil⟩)
    have orders : l.Orders (k + (code₁ ++ code₂).length + 1 + 1) (.store .t1 .t0 offset) :=
      ⟨_, _, _, writes, rfl⟩
    rw [Statement.definite, Bool.and_eq_true, List.length_append, ← Nat.add_assoc]
    exact ⟨⟨base.definite_of_safe safe few compiled inBase unknown within,
        e.definite_of_safe safe few compiled' inValue unknown' within'⟩,
      fun name mem is => (unknown₂ name mem is).next orders id List.not_mem_nil⟩
  | call e =>
    obtain ⟨value, compiled⟩ := Statement.compile_call done
    exact ⟨e.definite_of_safe safe few compiled contains unknown (e.within_of_compile alone compiled),
      unknown.passed (e.passes compiled) contains⟩
  | skip =>
    obtain ⟨rfl, rfl⟩ := Statement.compile_skip done
    exact ⟨rfl, unknown⟩
  | broken before defect span => exact absurd done Statement.compile_broken_ne

theorem definiteBlock_of_safe (safe : Safe l first s.names)
    (few : ∀ name count, s.arities.lookup name = some count → count ≤ maxParameters)
    (bs : List Statement) (alone : callsAloneAll bs) {known : Known} {k : Nat} {σ σ' : Supply}
    {code : List Line} (done : compileBlock s bs σ = .ok (code, σ')) (contains : l.Contains k code)
    (unknown : Unknown l first s.names known k) :
    definiteBlock known bs ∧ Unknown l first s.names (afterAll known bs) (k + code.length) := by
  cases bs with
  | nil =>
    obtain ⟨rfl, rfl⟩ := compileBlock_nil done
    exact ⟨rfl, unknown⟩
  | cons b bs =>
    obtain ⟨first, σ₁, rest, compiled, compiled', rfl⟩ := compileBlock_cons done
    rw [Listing.contains_append] at contains
    obtain ⟨definite, unknown'⟩ := b.definite_of_safe safe few alone.1 compiled contains.1 unknown
    obtain ⟨definite', last⟩ := definiteBlock_of_safe safe few bs alone.2 compiled' contains.2 unknown'
    rw [definiteBlock, Bool.and_eq_true, List.length_append, ← Nat.add_assoc]
    exact ⟨⟨definite, definite'⟩, last⟩

end

/-! ## Functions and programs -/

/-- Only the parameters are written at the start. -/
theorem Unknown.parameters {names : List String} {registers : List Register}
    {parameters : List String} {k : Nat} {known : Known} (h : Unknown l first names known k)
    (contains : l.Contains k
      (List.zipWith (fun r name => saveTo (slotOf names name) r) registers parameters)) :
    Unknown l first names (fun name => parameters.contains name || known name)
      (k + (List.zipWith (fun r name => saveTo (slotOf names name) r) registers parameters).length) := by
  induction parameters generalizing registers k known with
  | nil =>
    rw [List.zipWith_nil_right]
    exact h.mono fun _ is => is
  | cons name parameters ih =>
    cases registers with
    | nil => exact h.mono fun _ is => Bool.or_eq_true_iff.2 (.inr is)
    | cons r registers =>
      rw [List.zipWith_cons_cons, Listing.contains_cons] at contains
      have le : Known.Le (fun other => parameters.contains other || known.add name other)
          fun other => (name :: parameters).contains other || known other := fun other is => by
        simp only [Known.add, List.contains_cons, Bool.or_eq_true] at is ⊢
        exact or_assoc.2 (or_left_comm.1 is)
      have last := (ih (h.assign contains.1) contains.2).mono le
      rwa [List.zipWith_cons_cons, List.length_cons, Nat.add_comm _ 1, ← Nat.add_assoc]

/-- **A function** whose code reads only slots that were written assigns its variables on all
paths before it reads them. -/
theorem Function.definite_of_safe {f : Function} {constants : List String}
    {arities : List (String × Nat)} {σ σ' : Supply} {code : List Line}
    (safe : Safe l first f.names)
    (few : ∀ name count, arities.lookup name = some count → count ≤ maxParameters)
    (alone : ∀ body, f.body = some body → body.callsAlone)
    (done : f.compile constants arities σ = .ok (code, σ')) (contains : l.Contains first code) :
    f.body.all (·.definite (.of f.parameters)) := by
  obtain ⟨body, inner, found, compiled, rfl⟩ := Function.compile_eq_ok done
  simp only [prologue, Listing.contains_append] at contains
  obtain ⟨⟨⟨begins, saves⟩, inside⟩, -⟩ := contains
  have starts : Unknown l first f.names (.of []) first := fun _ _ _ => ⟨[], .start, List.not_mem_nil⟩
  have enters : Passes l first f.names [place (functionLabel f.name),
      line "addv" [Register.sp, Register.sp, .int (-(4 * (1 + f.names.length + σ'.peak) : Nat))],
      saveTo 0 .ra] := by
    have move : Passes l first f.names [line "addv" [Register.sp, Register.sp,
        .int (-(4 * (1 + f.names.length + σ'.peak) : Nat))]] :=
      .instruction (c := .computeWith ⟨.add, false⟩ .sp .sp _) rfl id fun _ _ => List.not_mem_nil
    exact (Passes.label _).append (move.append (.saveTo (.inl rfl) .ra))
  have same : Known.Le (fun name => f.parameters.contains name || Known.of [] name)
      (.of f.parameters) := fun name is => by simpa [Known.of] using is
  have unknown := ((starts.passed enters begins).parameters saves).mono same
  rw [Nat.add_assoc, ← List.length_append] at unknown
  rw [found, Option.all_some]
  exact (body.definite_of_safe safe few (alone body found) compiled inside unknown).1

end

end Polyglot.B
