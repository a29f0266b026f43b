import Polyglot.Proofs.B.Layout
import Polyglot.Proofs.B.Sentences

/-!
# Addresses that are split

An address that ends with a literal being added or subtracted is split into a base and an offset. In
the tree of a source, such an address is the sum of the base and the literal, whatever it stands in
(`Reading.peels_of_split`), unless it is no expression at all: the literal may be below any trees that have
one part only, and those of sources that are no expressions have more (`Branching`).

The compiler refuses an address that is split only if it refuses the whole. What it refuses does not depend on how
many temporaries and labels are in use (`Expression.similar`).
-/

namespace Polyglot.B

open Polyglot.Source
open Polyglot.Assembly (Line Operand)
open Polyglot.Machine (Register fits Syscall)

/-! ## Reading -/

/-- Whether an operator adds an offset if a number is on its right. -/
def Operator.Shifts (op : Operator) (n k : Int) : Prop := op = .add ∧ k = n ∨ op = .sub ∧ k = -n

/-- Whether an expression is a base to which an offset is added, as a literal that is added or subtracted. -/
def Peels (base : Expression) (k : Int) (whole : Expression) : Prop :=
  ∃ op n span signSpan, whole = .binary op base (.integer n span) signSpan ∧ op.Shifts n k

/-- Whether an expression is never compiled. -/
def Expression.Refused (e : Expression) : Prop := ∀ s σ r, e.compile s σ ≠ .ok r

theorem refused_broken {before : List Expression} {defect : Defect} {span : Span} :
    (Expression.broken before defect span).Refused :=
  fun _ _ _ => Expression.compile_broken_ne

theorem Expression.Refused.binary {op : Operator} {left right : Expression} {span : Span} (h : right.Refused) :
    (Expression.binary op left right span).Refused := by
  intro s σ r done
  obtain ⟨_, _, _, _, _, _, _, second, -⟩ := Expression.compile_binary done
  exact h _ _ _ second

/-- The names of the trees that are expressions and do not stand for what is below them. -/
def solitary : List String := ["call", "load", "string", "variable"]

/-- Whether calls and other trees that do not stand for what is below them have several parts, or none. -/
def Branching (t : Tree) : Prop := ∀ u ∈ t.parts, u.name ∈ solitary → u.children.length ≠ 1

theorem Branching.below {t u : Tree} (h : Branching t) (mem : u ∈ t.children) : Branching u :=
  fun v mem' => h v (Tree.parts_subset (Tree.mem_parts_of_mem_children t.self_mem_parts mem) mem')

namespace Reading

variable {t whole : Tree} {parts : List Part} {single sign last : Part} {left base : Expression} {k n : Int}

/-- A tree with one part stands for that part, or for nothing. -/
theorem expressionOf_single (inner : t.isLeaf = false) (other : t.name ∉ solitary) :
    expressionOf t [single] = single.2.expression ∨ (expressionOf t [single]).Refused := by
  have tokenless : t.token? = none := by
    cases t with
    | leaf => cases inner
    | node => rfl
  unfold expressionOf
  split
  case h_8 =>
    rw [tokenless]
    exact .inr refused_broken
  case h_9 named | h_10 named | h_11 named | h_12 named => exact absurd (named ▸ by decide) other
  case h_13 => exact .inr refused_broken
  all_goals exact .inl rfl

/-- The last operator of a chain has the others before it, unless one of them has nothing after it. -/
theorem chainFrom_append (whole' : Tree) (left : Expression) (parts : List Part) :
    chainFrom whole left (parts ++ [sign, last])
        = binaryOf sign.1 (chainFrom whole' left parts) last.2.expression
      ∨ (chainFrom whole left (parts ++ [sign, last])).Refused := by
  fun_induction chainFrom whole' left parts with
  | case1 left => exact .inl rfl
  | case2 left dangling => exact .inr refused_broken
  | case3 left sign' operand rest ih => exact ih

theorem chain_append (whole' : Tree) (first : Part) (parts : List Part) :
    chain whole (first :: parts ++ [sign, last])
        = binaryOf sign.1 (chain whole' (first :: parts)) last.2.expression
      ∨ (chain whole (first :: parts ++ [sign, last])).Refused :=
  chainFrom_append whole' first.2.expression parts

theorem binaryOf_of_isSign {text : String} {op : Operator} (isSign : isSign sign.1 text)
    (known : Operator.ofSign? text = some op) {right : Expression} :
    binaryOf sign.1 left right = .binary op left right sign.1.span := by
  have same : (sign.1.token?.map (·.lexeme)).getD "" = text := by
    rw [B.isSign, Option.any_eq_true] at isSign
    obtain ⟨token, found, eq⟩ := isSign
    rw [found]
    exact beq_iff_eq.1 eq
  rw [binaryOf, same, known]

theorem refused_binaryOf {right : Expression} (h : right.Refused) : (binaryOf sign.1 left right).Refused := by
  unfold binaryOf
  split
  · exact h.binary
  · exact refused_broken

/-- Whether an expression is a literal number, or none at all. -/
def StandsFor (n : Int) (e : Expression) : Prop := (∃ span, e = .integer n span) ∨ e.Refused

/-- A sum that is split is the sum of what it is split into. -/
theorem peels_of_splitSum (split : splitSum whole parts = some (base, k))
    (literal : ∀ p ∈ parts, ∀ n, p.2.literal = some n → StandsFor n p.2.expression) :
    Peels base k (chain whole parts) ∨ (chain whole parts).Refused := by
  unfold splitSum at split
  dsimp only at split
  split at split
  · rename_i first others sign last before after
    have are : parts = first :: others ++ [sign, last] := by rw [← before, ← after, List.take_append_drop]
    obtain ⟨n, found, split⟩ := Option.bind_eq_some_iff.1 split
    have mem : last ∈ parts := are ▸ List.mem_append_right _ (List.mem_cons_of_mem _ List.mem_cons_self)
    rw [before] at split
    rw [are]
    obtain eq | refused := @chain_append whole sign last
      (whole.withChildren ((first :: others).map (·.1))) first others
    · rw [eq]
      obtain ⟨span, is⟩ | refused := literal last mem n found
      · rw [is]
        split at split
        · rename_i plus
          obtain ⟨rfl, rfl⟩ := Prod.mk.inj (Option.some.inj split)
          rw [binaryOf_of_isSign plus rfl]
          exact .inl ⟨_, _, _, _, rfl, .inl ⟨rfl, rfl⟩⟩
        · split at split
          · rename_i minus
            obtain ⟨rfl, rfl⟩ := Prod.mk.inj (Option.some.inj split)
            rw [binaryOf_of_isSign minus rfl]
            exact .inl ⟨_, _, _, _, rfl, .inr ⟨rfl, rfl⟩⟩
          · cases split
      · exact .inr (refused_binaryOf refused)
    · exact .inr refused
  · cases split

/-- What a tree is read as if its parts are read so. -/
theorem standsFor_literalOf (below : parts ≠ [] → t.isLeaf = false)
    (branching : t.name ∈ solitary → parts.length ≠ 1)
    (each : ∀ p ∈ parts, ∀ n, p.2.literal = some n → StandsFor n p.2.expression) (n : Int)
    (literal : literalOf t parts = some n) : StandsFor n (expressionOf t parts) := by
  unfold literalOf at literal
  split at literal
  · split at literal
    · rename_i named
      unfold expressionOf
      simp only [beq_iff_eq.1 named, literal]
      exact .inl ⟨_, rfl⟩
    · cases literal
  · rename_i single
    have other : t.name ∉ solitary := fun mem => branching mem rfl
    obtain eq | refused := @expressionOf_single t single (below (List.cons_ne_nil _ _)) other
    · rw [eq]
      exact each single (List.mem_singleton_self _) n literal
    · exact .inr refused
  · cases literal

/-- What a tree is split into if its parts are split so. -/
theorem peels_splitOf (below : parts ≠ [] → t.isLeaf = false) (branching : t.name ∈ solitary → parts.length ≠ 1)
    (each : ∀ p ∈ parts, ∀ n, p.2.literal = some n → StandsFor n p.2.expression)
    (each' : ∀ p ∈ parts, ∀ base k, p.2.split = some (base, k) →
      Peels base k p.2.expression ∨ p.2.expression.Refused)
    (split : splitOf t parts = some (base, k)) :
    Peels base k (expressionOf t parts) ∨ (expressionOf t parts).Refused := by
  unfold splitOf at split
  split at split
  · rename_i named
    have isChain : expressionOf t parts = chain t parts := by
      unfold expressionOf
      simp only [beq_iff_eq.1 named]
    rw [isChain]
    exact peels_of_splitSum split each
  · split at split
    · rename_i single
      have other : t.name ∉ solitary := fun mem => branching mem rfl
      obtain eq | refused := @expressionOf_single t single (below (List.cons_ne_nil _ _)) other
      · rw [eq]
        exact each' single (List.mem_singleton_self _) base k split
      · exact .inr refused
    · cases split

theorem length_partsOf (ts : List Tree) : (partsOf ts).length = ts.length := by
  induction ts with
  | nil => rfl
  | cons t ts ih => rw [partsOf, List.length_cons, List.length_cons, ih]

/-- Whether the literal and the split of a reading are those of its expression. -/
structure Honest (r : Reading) : Prop where
  /-- The literal. -/
  literal : ∀ n, r.literal = some n → StandsFor n r.expression
  /-- The base and the offset. -/
  split : ∀ base k, r.split = some (base, k) → Peels base k r.expression ∨ r.expression.Refused

mutual

/-- **An address that is split** is the sum of its base and its offset. -/
theorem honest_ofTree (t : Tree) (branching : Branching t) : (ofTree t).Honest := by
  cases t with
  | leaf name label terminal token =>
    refine ⟨standsFor_literalOf (fun some => absurd rfl some) (fun _ => Nat.zero_ne_one) nofun, fun base k => ?_⟩
    exact peels_splitOf (fun some => absurd rfl some) (fun _ => Nat.zero_ne_one) nofun nofun
  | node name label choice children =>
    have honest := honest_partsOf children fun u mem => branching.below mem
    have several : name ∈ solitary → (partsOf children).length ≠ 1 := fun mem =>
      length_partsOf children ▸ branching _ (Tree.self_mem_parts _) mem
    exact ⟨standsFor_literalOf (fun _ => rfl) several fun p mem => (honest p mem).literal,
      fun base k => peels_splitOf (fun _ => rfl) several (fun p mem => (honest p mem).literal)
        fun p mem => (honest p mem).split⟩

theorem honest_partsOf (ts : List Tree) (branching : ∀ t ∈ ts, Branching t) : ∀ p ∈ partsOf ts, p.2.Honest := by
  cases ts with
  | nil => exact List.forall_mem_nil _
  | cons t ts =>
    obtain ⟨first, others⟩ := List.forall_mem_cons.1 branching
    rw [partsOf]
    exact List.forall_mem_cons.2 ⟨honest_ofTree t first, honest_partsOf ts others⟩

end

end Reading

/-! ## Sources -/

/-- Whether values are the same, or both in slots. -/
inductive Value.Like : Value → Value → Prop
  /-- They are in slots. -/
  | slot {n m : Nat} : Like (.slot n) (.slot m)
  /-- They are the same. -/
  | same {value : Value} : Like value value

/-- Whether two results are alike, or failures for the same reason. -/
inductive Matches {α : Type} (R : α → α → Prop) :
    Except CompileError (α × Supply) → Except CompileError (α × Supply) → Prop
  /-- They are alike. -/
  | ok {a b : α} {σ τ : Supply} : R a b → Matches R (.ok (a, σ)) (.ok (b, τ))
  /-- They are failures. -/
  | error {e : CompileError} : Matches R (.error e) (.error e)

/-- Whether two steps of the compiler have results that match, whatever is in use before them. -/
def Similar {α : Type} (R : α → α → Prop) (m m' : Emit α) : Prop := ∀ σ τ, Matches R (m σ) (m' τ)

namespace Similar

variable {α β : Type} {R : α → α → Prop} {R' : β → β → Prop} {m m' : Emit α} {f f' : α → Emit β} {a b : α}
  {e : CompileError}

theorem pure (h : R a b) : Similar R (pure a) (pure b) := fun _ _ => .ok h

theorem throw : Similar R (throw e) (throw e) := fun _ _ => .error

theorem bind (first : Similar R m m') (next : ∀ a b, R a b → Similar R' (f a) (f' b)) :
    Similar R' (m >>= f) (m' >>= f') := by
  intro σ τ
  show Matches R' ((m σ) >>= fun p => f p.1 p.2) ((m' τ) >>= fun p => f' p.1 p.2)
  generalize eq : m σ = x
  generalize eq' : m' τ = y
  cases eq ▸ eq' ▸ first σ τ with
  | ok alike => exact next _ _ alike _ _
  | error => exact .error

/-- What has been made of any lines is kept in a slot. -/
theorem keep {s : Scope} {code code' : List Line} {r : Register} :
    Similar (fun p q => Value.Like p.2 q.2) (s.keep code r) (s.keep code' r) := fun _ _ => .ok .slot

theorem freshLabel : Similar (fun _ _ => True) freshLabel freshLabel := fun _ _ => .ok trivial

end Similar

section

variable {s : Scope} {left right left' right' : Value}

/-- Only values that are known are folded. -/
theorem Operator.fold?_of_like (op : Operator) (first : left.Like left') (second : right.Like right') :
    op.fold? left right = op.fold? left' right' := by
  cases first with
  | slot => cases second <;> rfl
  | same =>
    cases second with
    | slot => cases left <;> rfl
    | same => rfl

theorem similarAll {es : List Expression}
    (each : ∀ e ∈ es, Similar (fun p q => Value.Like p.2 q.2) (e.compile s) (e.compile s)) :
    Similar (fun _ _ => True) (compileAll s es) (compileAll s es) := by
  induction es with
  | nil =>
    rw [compileAll]
    exact .pure trivial
  | cons e es ih =>
    obtain ⟨first, others⟩ := List.forall_mem_cons.1 each
    rw [compileAll]
    exact first.bind fun _ _ _ => (ih others).bind fun _ _ _ => .pure trivial

/-- **What is compiled** does not depend on what is in use, but for the slots and the labels. -/
theorem Expression.similar (e : Expression) :
    Similar (fun p q => Value.Like p.2 q.2) (e.compile s) (e.compile s) := by
  induction e using Expression.induct with
  | step e ih =>
    cases e with
    | integer n span =>
      unfold Expression.compile
      split
      · exact .pure .same
      · exact .throw
    | text text =>
      rw [Expression.compile_text]
      exact .pure .same
    | «variable» name span =>
      unfold Expression.compile
      split
      · exact .pure .same
      · exact .throw
    | negate operand | isZero operand =>
      rw [Expression.compile]
      refine (ih operand (List.mem_singleton_self _)).bind fun p q like => ?_
      obtain ⟨code, value⟩ := p
      obtain ⟨code', value'⟩ := q
      cases like with
      | slot => exact .keep
      | same =>
        cases value with
        | int => exact .pure .same
        | slot | constant => exact .keep
    | binary op left right span =>
      rw [Expression.compile]
      refine (ih left List.mem_cons_self).bind fun p q like => ?_
      refine (ih right (List.mem_cons_of_mem _ List.mem_cons_self)).bind fun p' q' like' => ?_
      obtain ⟨code, value⟩ := p
      obtain ⟨code', value'⟩ := q
      obtain ⟨rest, other⟩ := p'
      obtain ⟨rest', other'⟩ := q'
      -- values that are alike are the same, or both of them slots
      have zero : (other == Value.int 0) = (other' == Value.int 0) := by cases like' <;> rfl
      have fold := op.fold?_of_like like like'
      dsimp only at fold ⊢
      rw [zero, fold]
      split
      · exact .bind (R := fun _ _ => False) .throw (by rintro _ _ ⟨⟩)
      · cases op.fold? value' other' with
        | some known => exact .pure .same
        | none => exact .keep
    | call callee arguments span =>
      rw [Expression.compile]
      refine .bind (R := Eq) (fun σ τ => ?_) fun expected _ same => ?_
      · show Matches Eq ((s.arity callee span).bind fun n => .ok (n, σ)) ((s.arity callee span).bind fun n => .ok (n, τ))
        cases s.arity callee span with
        | ok => exact .ok rfl
        | error => exact .error
      · subst same
        dsimp only
        split
        · exact .bind (R := fun _ _ => False) .throw (by rintro _ _ ⟨⟩)
        · refine (similarAll ih).bind fun p q _ => ?_
          split
          · exact .keep
          · exact Similar.freshLabel.bind fun _ _ _ => .keep
    | load base offset span =>
      rw [Expression.compile]
      split
      · exact .bind (R := fun _ _ => False) .throw (by rintro _ _ ⟨⟩)
      · exact (ih base (List.mem_singleton_self _)).bind fun _ _ _ => .keep
    | broken before defect span =>
      rw [Expression.compile]
      exact (similarAll ih).bind fun _ _ _ => .throw

variable {e base whole : Expression} {k : Int} {span span' : Span} {σ σ' : Supply}

/-- What is compiled is compiled whatever is in use. -/
theorem Expression.compile_of_compile {result : List Line × Value} (done : e.compile s σ = .ok (result, σ')) (τ : Supply) :
    ∃ result' τ', e.compile s τ = .ok (result', τ') := by
  have matched := e.similar (s := s) σ τ
  rw [done] at matched
  generalize eq : e.compile s τ = other at matched
  cases matched with
  | @ok _ result' _ τ' => exact ⟨result', τ', rfl⟩

theorem fits_neg {n : Int} {bits : Nat} : fits (-n) bits = fits n bits := by
  unfold fits
  rw [Int.natAbs_neg]

/-- The whole is compiled to the code of the base, and then the offset is added, by the compiler or by the
machine. -/
theorem Peels.compile (h : Peels base k whole) {result : List Line × Value}
    (done : whole.compile s σ = .ok (result, σ')) :
    fits k literalBits ∧ ∃ (op : Operator) (n : Int) (code : List Line) (value : Value) (σ₁ : Supply),
      op.Shifts n k ∧ fits n literalBits
      ∧ base.compile s σ = .ok ((code, value), σ₁)
      ∧ ((∃ known, op.fold? value (.int (Int32.ofInt n)) = some known ∧ result = (code, known) ∧ σ' = σ₁)
        ∨ s.keep (code ++ op.lines value (.int (Int32.ofInt n))) .t0 σ₁ = .ok (result, σ')) := by
  obtain ⟨op, n, span, signSpan, rfl, same⟩ := h
  obtain ⟨code, value, σ₁, code', b, σ₂, first, second, -, made⟩ := Expression.compile_binary done
  have small : fits n literalBits := by
    simp only [Expression.compile] at second
    split at second
    · rename_i small
      exact small
    · exact absurd second Emit.throw_ne_ok
  obtain ⟨eq, rfl⟩ := Expression.compile_integer second
  obtain ⟨rfl, rfl⟩ := Prod.mk.inj eq
  rw [List.append_nil] at made
  have fit : fits k literalBits := by
    obtain ⟨-, rfl⟩ | ⟨-, rfl⟩ := same
    · exact small
    · exact fits_neg.trans small
  exact ⟨fit, op, n, code, value, _, same, small, first, made⟩

theorem Expression.compile_load_eq {code : List Line} {value : Value} {σ₁ : Supply} (fit : fits k literalBits)
    (first : base.compile s σ = .ok ((code, value), σ₁)) : (Expression.load base k span).compile s σ
      = s.keep (code ++ [value.load .t1, line "load" [Register.t0, Register.t1, .int k]]) .t0 σ₁ := by
  rw [Expression.compile, fit]
  show ((base.compile s σ) >>= fun p => _) = _
  rw [first]
  rfl

/-- **A word is not refused** at an offset from a base unless it is refused at the whole. -/
theorem Peels.load_compiles (h : Peels base k whole) {result : List Line × Value}
    (done : (Expression.load whole 0 span).compile s σ = .ok (result, σ')) :
    ∃ result' τ, (Expression.load base k span').compile s σ = .ok (result', τ) := by
  obtain ⟨-, code, value, σ₁, compiled, -⟩ := Expression.compile_load done
  obtain ⟨fit, op, n, code, value, σ₁, -, -, first, -⟩ := h.compile compiled
  exact ⟨_, _, (Expression.compile_load_eq fit first).trans (keep_eq ..)⟩

theorem Statement.compile_store_eq {first second : List Line} {address value : Value} {σ₁ : Supply}
    (fit : fits k literalBits) (compiled : base.compile s σ.released = .ok ((first, address), σ₁))
    (compiled' : e.compile s σ₁ = .ok ((second, value), σ')) : (Statement.store base k span e).compile s σ
      = .ok (first ++ second ++ [address.load .t0, value.load .t1,
          line "store" [Register.t1, Register.t0, .int k]], σ') := by
  rw [Statement.compile, releaseTemporaries_bind, fit]
  exact Emit.bind_eq_ok.2 ⟨_, _, compiled, Emit.bind_eq_ok.2 ⟨_, _, compiled', rfl⟩⟩

/-- **A store is not refused** at an offset from a base unless it is refused at the whole. -/
theorem Peels.store_compiles (h : Peels base k whole) {code : List Line}
    (done : (Statement.store whole 0 span e).compile s σ = .ok (code, σ')) :
    ∃ code' τ, (Statement.store base k span' e).compile s σ = .ok (code', τ) := by
  obtain ⟨-, first, address, σ₁, second, value, compiled, compiled', -⟩ := Statement.compile_store done
  obtain ⟨fit, op, n, code, value, σ₁, -, -, compiled, -⟩ := h.compile compiled
  obtain ⟨⟨second, value⟩, τ, compiled'⟩ := Expression.compile_of_compile compiled' σ₁
  exact ⟨_, τ, Statement.compile_store_eq fit compiled compiled'⟩

end

end Polyglot.B
