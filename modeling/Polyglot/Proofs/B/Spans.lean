import Polyglot.Proofs.B.Blaming
import Polyglot.Proofs.Tree.Spans

/-!
# Where the spans of programs start

All spans of a program that was read from a tree are those of trees made of its tokens, so they start where one
of these does (`Program.startsIn_ofTree`). Errors of the compiler are about these spans. So whatever error there is
with a tree, it is about something that starts where one of its tokens does (`startsIn_of_compile`).
-/

namespace Polyglot.B

open Polyglot.Source

/-! ## Spans of expressions -/

namespace Expression

variable {t u : Tree} {e : Expression}

/-- Whether the spans of an expression, and of all that are inside, start in a tree. -/
def StartsIn (e : Expression) (t : Tree) : Prop :=
  ∀ inner : Expression, inner.Inside e → ∀ span ∈ inner.span?, span.StartsIn t

namespace StartsIn

/-- It is enough to look at the operands. -/
theorem of (own : ∀ span ∈ e.span?, span.StartsIn t) (operands : ∀ o ∈ e.operands, o.StartsIn t) : e.StartsIn t := by
  intro inner inside
  cases inside with
  | refl => exact own
  | operand inside mem => exact operands _ mem inner inside

theorem imp (h : e.StartsIn u) (le : ∀ span : Span, span.StartsIn u → span.StartsIn t) : e.StartsIn t :=
  fun inner inside span mem => le span (h inner inside span mem)

theorem above (h : e.StartsIn u) (mem : u ∈ t.children) : e.StartsIn t :=
  h.imp fun _ starts => starts.above mem

theorem broken {before : List Expression} {defect : Defect} {span : Span} (starts : span.StartsIn t)
    (each : ∀ o ∈ before, o.StartsIn t) : (Expression.broken before defect span).StartsIn t :=
  of (by rintro _ ⟨⟩; exact starts) each

end StartsIn

end Expression

namespace Reading

variable {t u : Tree} {parts : List Part}

/-- Whether all expressions that a reading is made of have spans that start in a tree. -/
structure StartsIn (r : Reading) (t : Tree) : Prop where
  /-- The expression. -/
  expression : r.expression.StartsIn t
  /-- The base. -/
  split : ∀ base offset, r.split = some (base, offset) → base.StartsIn t
  /-- The expressions of the trees below. -/
  items : ∀ e ∈ r.items, e.StartsIn t

theorem StartsIn.above {r : Reading} (h : r.StartsIn u) (mem : u ∈ t.children) : r.StartsIn t where
  expression := h.expression.above mem
  split base offset found := (h.split base offset found).above mem
  items e among := (h.items e among).above mem

/-- A word from memory and the base that it is looked for at. -/
theorem StartsIn.address {r : Reading} (h : r.StartsIn t) : r.address.1.StartsIn t := by
  rw [Reading.address]
  cases found : r.split with
  | none => exact h.expression
  | some split => exact h.split _ _ found

/-- Whether the parts of a tree and their readings start in it. -/
def PartsStartIn (parts : List Part) (t : Tree) : Prop :=
  ∀ p ∈ parts, p.1.span.StartsIn t ∧ p.2.StartsIn t

theorem startsIn_binaryOf {sign : Tree} {left right : Expression} (starts : sign.span.StartsIn t)
    (first : left.StartsIn t) (second : right.StartsIn t) : (binaryOf sign left right).StartsIn t := by
  have both : ∀ o ∈ [left, right], o.StartsIn t :=
    List.forall_mem_cons.2 ⟨first, List.forall_mem_singleton.2 second⟩
  unfold binaryOf
  split
  · exact .of (by rintro _ ⟨⟩; exact starts) both
  · exact .broken starts both

theorem startsIn_chainFrom {whole : Tree} (starts : whole.span.StartsIn t) {left : Expression}
    (first : left.StartsIn t) (each : PartsStartIn parts t) : (chainFrom whole left parts).StartsIn t := by
  fun_induction chainFrom whole left parts with
  | case1 => exact first
  | case2 left part => exact .broken starts (List.forall_mem_singleton.2 first)
  | case3 left sign operand rest ih =>
    obtain ⟨⟨sign, -⟩, each⟩ := List.forall_mem_cons.1 each
    obtain ⟨⟨-, operand⟩, each⟩ := List.forall_mem_cons.1 each
    exact ih (startsIn_binaryOf sign first operand.expression) each

theorem startsIn_chain {whole : Tree} (starts : whole.span.StartsIn t) (each : PartsStartIn parts t) :
    (chain whole parts).StartsIn t := by
  cases parts with
  | nil => exact .broken starts (List.forall_mem_nil _)
  | cons first rest =>
    obtain ⟨⟨-, first⟩, each⟩ := List.forall_mem_cons.1 each
    exact startsIn_chainFrom starts first.expression each

theorem startsIn_unary {whole : Tree} (starts : whole.span.StartsIn t) (each : PartsStartIn parts t) :
    (unary whole parts).StartsIn t := by
  have operand {p : Part} (mem : p ∈ parts) : p.2.expression.StartsIn t := (each p mem).2.expression
  have broken {defect : Defect} : (Expression.broken [] defect whole.span).StartsIn t :=
    .broken starts (List.forall_mem_nil _)
  unfold unary
  split
  · exact operand List.mem_cons_self
  · rename_i sign inner
    have inside : inner.2.expression.StartsIn t := operand (List.mem_cons_of_mem _ List.mem_cons_self)
    have alone : ∀ o ∈ [inner.2.expression], o.StartsIn t := List.forall_mem_singleton.2 inside
    split
    · exact .of (by rintro _ ⟨⟩) alone
    split
    · exact .of (by rintro _ ⟨⟩) alone
    split
    · exact .broken (each _ List.mem_cons_self).1 alone
    · exact broken
  · split
    · exact operand (List.mem_cons_of_mem _ List.mem_cons_self)
    · exact broken
  · exact broken

theorem startsIn_call {whole : Tree} (starts : whole.span.StartsIn t) (each : PartsStartIn parts t) :
    (call whole parts).StartsIn t := by
  unfold call
  split
  · exact .broken starts (List.forall_mem_nil _)
  · refine .of (by rintro _ ⟨⟩; exact starts) ?_
    show ∀ o ∈ ((parts.find? fun p => p.1.name == "arguments").map (·.2.items)).getD [], o.StartsIn t
    cases found : parts.find? fun p => p.1.name == "arguments" with
    | none => exact List.forall_mem_nil _
    | some p => exact (each p (List.mem_of_find?_eq_some found)).2.items

theorem startsIn_load {whole : Tree} (starts : whole.span.StartsIn t) (each : PartsStartIn parts t) :
    (load whole parts).StartsIn t := by
  unfold load
  split
  · exact .broken starts (List.forall_mem_nil _)
  · rename_i found
    obtain ⟨starts, reading⟩ := each _ (List.mem_of_find?_eq_some found)
    exact .of (by rintro _ ⟨⟩; exact starts) (List.forall_mem_singleton.2 reading.address)

theorem startsIn_expressionOf {whole : Tree} (starts : whole.span.StartsIn t) (each : PartsStartIn parts t) :
    (expressionOf whole parts).StartsIn t := by
  have broken {defect : Defect} : (Expression.broken [] defect whole.span).StartsIn t :=
    .broken starts (List.forall_mem_nil _)
  unfold expressionOf
  split
  any_goals exact startsIn_chain starts each
  · exact startsIn_unary starts each
  · split
    · exact .of (by rintro _ ⟨⟩; exact starts) (List.forall_mem_nil _)
    · exact broken
  · exact .of (by rintro _ ⟨⟩) (List.forall_mem_nil _)
  · exact .of (by rintro _ ⟨⟩; exact starts) (List.forall_mem_nil _)
  · exact startsIn_call starts each
  · exact startsIn_load starts each
  · exact broken

/-- The base of a sum is read from the first parts of it. -/
theorem startsIn_splitSum {whole : Tree} (among : ∀ p ∈ parts, p.1 ∈ whole.children)
    (each : PartsStartIn parts whole) {base : Expression} {offset : Int}
    (found : splitSum whole parts = some (base, offset)) : base.StartsIn whole := by
  -- the tree of the base is put together from all parts but the last two
  have chained : (chain (whole.withChildren ((parts.take (parts.length - 2)).map (·.1)))
      (parts.take (parts.length - 2))).StartsIn whole := by
    refine startsIn_chain ((Tree.startsIn_span _).of_withChildren ?_) fun p mem => each p (List.mem_of_mem_take mem)
    intro u mem
    obtain ⟨p, first, rfl⟩ := List.mem_map.1 mem
    exact among p (List.mem_of_mem_take first)
  unfold splitSum at found
  dsimp only at found
  split at found
  · obtain ⟨value, -, found⟩ := Option.bind_eq_some_iff.1 found
    split at found
    · cases found
      exact chained
    split at found
    · cases found
      exact chained
    · cases found
  · cases found

theorem startsIn_ofParts {whole : Tree} (among : ∀ p ∈ parts, p.1 ∈ whole.children)
    (each : PartsStartIn parts whole) : (ofParts whole parts).StartsIn whole where
  expression := startsIn_expressionOf whole.startsIn_span each
  split base offset found := by
    simp only [ofParts, splitOf] at found
    split at found
    · exact startsIn_splitSum among each found
    · split at found
      · exact (each _ List.mem_cons_self).2.split base offset found
      · cases found
  items := by
    refine List.forall_mem_map.2 fun p mem => ?_
    exact (each p (List.mem_of_mem_filter mem)).2.expression

mutual

/-- **The spans of what is read from a tree** start in the tree. -/
theorem startsIn_ofTree (t : Tree) : (ofTree t).StartsIn t := by
  cases t with
  | leaf name label terminal token => exact startsIn_ofParts (List.forall_mem_nil _) (List.forall_mem_nil _)
  | node name label choice children =>
    have each := startsIn_partsOf children
    refine startsIn_ofParts (fun p mem => (each p mem).1) fun p mem => ?_
    obtain ⟨among, starts⟩ := each p mem
    exact ⟨p.1.startsIn_span.above among, starts.above among⟩

theorem startsIn_partsOf (ts : List Tree) : ∀ p ∈ partsOf ts, p.1 ∈ ts ∧ p.2.StartsIn p.1 := by
  cases ts with
  | nil => exact List.forall_mem_nil _
  | cons t ts =>
    rw [partsOf]
    refine List.forall_mem_cons.2 ⟨⟨List.mem_cons_self, startsIn_ofTree t⟩, fun p mem => ?_⟩
    obtain ⟨among, starts⟩ := startsIn_partsOf ts p mem
    exact ⟨List.mem_cons_of_mem _ among, starts⟩

end

/-- What is read from a part of a tree starts in the tree. -/
theorem startsIn_of_mem (mem : u ∈ t.children) : (ofTree u).StartsIn t := (startsIn_ofTree u).above mem

end Reading

/-! ## Spans of statements -/

namespace Statement

variable {t u : Tree} {b : Statement} {parts : List (Tree × Statement)}

/-- Whether the spans of a statement, and of all statements and expressions that are inside, start in a tree. -/
def StartsIn (b : Statement) (t : Tree) : Prop :=
  ∀ inner : Statement, inner.Inside b →
    (∀ span ∈ inner.span?, span.StartsIn t) ∧ ∀ o ∈ inner.operands, o.StartsIn t

namespace StartsIn

/-- It is enough to look at the operands and parts. -/
theorem of (own : ∀ span ∈ b.span?, span.StartsIn t) (operands : ∀ o ∈ b.operands, o.StartsIn t)
    (parts : ∀ part ∈ b.parts, part.StartsIn t) : b.StartsIn t := by
  intro inner inside
  cases inside with
  | refl => exact ⟨own, operands⟩
  | part inside mem => exact parts _ mem inner inside

theorem above (h : b.StartsIn u) (mem : u ∈ t.children) : b.StartsIn t := by
  intro inner inside
  obtain ⟨own, operands⟩ := h inner inside
  exact ⟨fun span found => (own span found).above mem, fun o among => (operands o among).above mem⟩

theorem broken {before : List Expression} {defect : Defect} (each : ∀ o ∈ before, o.StartsIn t) :
    (Statement.broken before defect t.span).StartsIn t :=
  of (by rintro _ ⟨⟩; exact t.startsIn_span) each (List.forall_mem_nil _)

end StartsIn

/-- What is read from the part of a tree with a label starts in the tree. -/
theorem startsIn_labeled {label : String} (found : t.labeled? label = some u) : (Reading.ofTree u).StartsIn t :=
  Reading.startsIn_of_mem (List.mem_of_find?_eq_some found)

theorem startsIn_conditional (each : ∀ p ∈ parts, p.2.StartsIn t) {label : String}
    {make : Expression → Statement → Statement}
    (makes : ∀ e b, e.StartsIn t → b.StartsIn t → (make e b).StartsIn t) :
    (conditional t label parts make).StartsIn t := by
  unfold conditional
  split
  · exact .broken (List.forall_mem_nil _)
  · rename_i found
    have condition := (startsIn_labeled found).expression
    dsimp only
    split
    · rename_i part
      obtain ⟨u, mem⟩ := mem_of_labeled? part
      exact makes _ _ condition (each _ mem)
    · exact .broken (List.forall_mem_singleton.2 condition)

theorem startsIn_assignment : (assignment t).StartsIn t := by
  unfold assignment
  split
  · exact .broken (List.forall_mem_nil _)
  · exact .broken (List.forall_mem_nil _)
  · rename_i found
    exact .of (by rintro _ ⟨⟩) (List.forall_mem_singleton.2 (startsIn_labeled found).expression) (List.forall_mem_nil _)

theorem startsIn_storing : (storing t).StartsIn t := by
  unfold storing
  split
  · exact .broken (List.forall_mem_nil _)
  · rename_i a found
    have base := (startsIn_labeled found).address
    have address : a.span.StartsIn t := a.startsIn_span.above (List.mem_of_find?_eq_some found)
    dsimp only
    split
    · refine .broken (List.forall_mem_singleton.2 ?_)
      exact .of (by rintro _ ⟨⟩; exact address) (List.forall_mem_singleton.2 base)
    · rename_i value
      have value := (startsIn_labeled value).expression
      exact .of (by rintro _ ⟨⟩; exact address) (List.forall_mem_cons.2 ⟨base, List.forall_mem_singleton.2 value⟩)
        (List.forall_mem_nil _)

theorem startsIn_ofParts (each : ∀ p ∈ parts, p.2.StartsIn t) : (ofParts t parts).StartsIn t := by
  unfold ofParts
  split
  · refine .of (by rintro _ ⟨⟩) (List.forall_mem_nil _) (List.forall_mem_map.2 fun p mem => ?_)
    exact each p (List.mem_of_mem_filter mem)
  · refine startsIn_conditional each fun e b condition body => ?_
    exact .of (by rintro _ ⟨⟩) (List.forall_mem_singleton.2 condition) (List.forall_mem_singleton.2 body)
  · refine startsIn_conditional each fun e b condition positive => ?_
    split
    · rename_i part
      obtain ⟨u, mem⟩ := mem_of_labeled? part
      exact .of (by rintro _ ⟨⟩) (List.forall_mem_singleton.2 condition)
        (List.forall_mem_cons.2 ⟨positive, List.forall_mem_singleton.2 (each _ mem)⟩)
    · exact .of (by rintro _ ⟨⟩) (List.forall_mem_singleton.2 condition) (List.forall_mem_singleton.2 positive)
  · refine .of (by rintro _ ⟨⟩) (fun o mem => ?_) (List.forall_mem_nil _)
    obtain ⟨v, found, rfl⟩ := Option.map_eq_some_iff.1 (Option.mem_toList.1 mem)
    exact (startsIn_labeled found).expression
  · exact startsIn_assignment
  · exact startsIn_storing
  · split
    · rename_i found
      have call := (Reading.startsIn_of_mem (List.mem_of_find?_eq_some found)).expression
      exact .of (by rintro _ ⟨⟩) (List.forall_mem_singleton.2 call) (List.forall_mem_nil _)
    · exact .broken (List.forall_mem_nil _)
  · exact .of (by rintro _ ⟨⟩) (List.forall_mem_nil _) (List.forall_mem_nil _)
  · exact .broken (List.forall_mem_nil _)

mutual

/-- **The spans of the statement of a tree** start in the tree. -/
theorem startsIn_ofTree (t : Tree) : (ofTree t).StartsIn t := by
  cases t with
  | leaf name label terminal token => exact startsIn_ofParts (List.forall_mem_nil _)
  | node name label choice children =>
    refine startsIn_ofParts fun p mem => ?_
    obtain ⟨among, starts⟩ := startsIn_partsOf children p mem
    exact starts.above among

theorem startsIn_partsOf (ts : List Tree) : ∀ p ∈ partsOf ts, p.1 ∈ ts ∧ p.2.StartsIn p.1 := by
  cases ts with
  | nil => exact List.forall_mem_nil _
  | cons t ts =>
    rw [partsOf]
    refine List.forall_mem_cons.2 ⟨⟨List.mem_cons_self, startsIn_ofTree t⟩, fun p mem => ?_⟩
    obtain ⟨among, starts⟩ := startsIn_partsOf ts p mem
    exact ⟨List.mem_cons_of_mem _ among, starts⟩

end

end Statement

/-! ## Programs -/

mutual

/-- The spans of texts without a value start in the tree. -/
theorem startsIn_textsIn (t : Tree) {span : Span} (mem : .error span ∈ textsIn t) : span.StartsIn t := by
  cases t with
  | leaf name label terminal token =>
    rw [textsIn] at mem
    split at mem
    · split at mem
      · cases List.mem_singleton.1 mem
      · cases List.mem_singleton.1 mem
        exact Tree.startsIn_span _
    · cases mem
  | node name label choice children =>
    rw [textsIn] at mem
    split at mem
    · cases List.mem_singleton.1 mem
      exact Tree.startsIn_span _
    · obtain ⟨u, among, starts⟩ := startsIn_textsInList children mem
      exact starts.above among

theorem startsIn_textsInList (ts : List Tree) {span : Span} (mem : .error span ∈ textsInList ts) :
    ∃ u ∈ ts, span.StartsIn u := by
  cases ts with
  | nil => cases mem
  | cons t ts =>
    rw [textsInList, List.mem_append] at mem
    obtain mem | mem := mem
    · exact ⟨t, List.mem_cons_self, startsIn_textsIn t mem⟩
    · obtain ⟨u, among, starts⟩ := startsIn_textsInList ts mem
      exact ⟨u, List.mem_cons_of_mem _ among, starts⟩

end

/-- Whether all spans of a program start in a tree. -/
structure Program.StartsIn (p : Program) (t : Tree) : Prop where
  /-- The spans of texts without a value. -/
  texts : ∀ span, .error span ∈ p.texts → span.StartsIn t
  /-- The spans of functions. -/
  functions : ∀ f ∈ p.functions, f.span.StartsIn t
  /-- The spans in what functions do. -/
  bodies : ∀ f ∈ p.functions, ∀ body ∈ f.body, body.StartsIn t

/-- **The spans of the program of a tree** start in the tree. -/
theorem Program.startsIn_ofTree (t : Tree) : (ofTree t).StartsIn t where
  texts _ mem := startsIn_textsIn t mem
  functions := by
    refine List.forall_mem_map.2 fun u mem => ?_
    exact u.startsIn_span.above (List.mem_of_mem_filter mem)
  bodies := by
    refine List.forall_mem_map.2 fun u mem body found => ?_
    obtain ⟨v, part, rfl⟩ := Option.map_eq_some_iff.1 found
    exact ((Statement.startsIn_ofTree v).above (List.mem_of_find?_eq_some part)).above (List.mem_of_mem_filter mem)

/-- An error of a program is about something that starts in the tree. -/
theorem Program.StartsIn.of_raises {p : Program} {t : Tree} {err : CompileError} (h : p.StartsIn t)
    (raises : p.Raises err) : ∀ span ∈ err.span?, span.StartsIn t := by
  cases raises with
  | text mem =>
    rintro _ ⟨⟩
    exact h.texts _ mem
  | function mem raises =>
    rw [raises.span?_eq]
    rintro _ ⟨⟩
    exact h.functions _ mem
  | missingMain => rintro _ ⟨⟩
  | statement mem does inside raises =>
    rw [raises.span?_eq]
    exact (h.bodies _ mem _ does _ inside).1
  | expression mem does inside among inside' raises =>
    rw [raises.span?_eq]
    exact (h.bodies _ mem _ does _ inside).2 _ among _ inside'

/-- **An error with a tree** is about something that starts where a token of the tree does. -/
theorem startsIn_of_compile {t : Tree} {err : CompileError} (failed : compile t = .error err) :
    ∀ span ∈ err.span?, span.StartsIn t :=
  (Program.startsIn_ofTree t).of_raises (Program.raises_of_compile failed)

end Polyglot.B
