import Mathlib.Data.List.Flatten
import Polyglot.Proofs.B.Reading
import Polyglot.Proofs.B.Sentences
import Polyglot.Proofs.B.Temporaries

/-!
# What readings hold

An expression that is read from a tree needs no more temporaries than the tree has tokens, and
its texts are among those of the tree (`Holds`). Each operator that is read has a token of its
own: an operator between two expressions or before one has its sign, and calls and loads start
with a token (`IsSentence.opens`).
-/

namespace Polyglot.B

open Polyglot.Source (Span)

/-- Whether trees hold expressions: they have as many tokens as the expressions need temporaries,
and the texts of the expressions. -/
structure Holds (ts : List Tree) (es : List Expression) : Prop where
  /-- There are as many tokens as temporaries. -/
  demand : demandAll es ≤ (ts.flatMap Tree.tokens).length
  /-- The texts are those of the trees. -/
  texts : ∀ text ∈ textsAll es, .ok text ∈ textsInList ts

theorem textsInList_eq (ts : List Tree) : textsInList ts = ts.flatMap textsIn := by
  induction ts with
  | nil => rfl
  | cons t ts ih => rw [textsInList, ih, List.flatMap_cons]

/-- The texts in an inner tree that is no text are those in the trees below. -/
theorem textsIn_node {name : String} (other : name ≠ "string") (label : Option String)
    (choice : Option Nat) (children : List Tree) :
    textsIn (.node name label choice children) = children.flatMap textsIn := by
  rw [textsIn, if_neg fun eq => other (beq_iff_eq.1 eq), textsInList_eq]

theorem demandAll_append (es fs : List Expression) :
    demandAll (es ++ fs) = demandAll es + demandAll fs := by
  induction es with
  | nil => rw [List.nil_append, demandAll, Nat.zero_add]
  | cons e es ih => rw [List.cons_append, demandAll, demandAll, ih, Nat.add_assoc]

theorem textsAll_append (es fs : List Expression) : textsAll (es ++ fs) = textsAll es ++ textsAll fs := by
  induction es with
  | nil => rw [List.nil_append, textsAll, List.nil_append]
  | cons e es ih => rw [List.cons_append, textsAll, textsAll, ih, List.append_assoc]

namespace Holds

variable {t sign : Tree} {ts us : List Tree} {es fs : List Expression} {e left right : Expression}

theorem nil : Holds ts [] := ⟨Nat.zero_le _, nofun⟩

theorem append (h : Holds ts es) (h' : Holds us fs) : Holds (ts ++ us) (es ++ fs) where
  demand := by
    rw [demandAll_append, List.flatMap_append, List.length_append]
    exact Nat.add_le_add h.demand h'.demand
  texts := by
    rw [textsAll_append, textsInList_eq, List.flatMap_append, ← textsInList_eq, ← textsInList_eq]
    exact List.forall_mem_append.2 ⟨fun text mem => List.mem_append_left _ (h.texts text mem),
      fun text mem => List.mem_append_right _ (h'.texts text mem)⟩

theorem cons (h : Holds [t] [e]) (h' : Holds ts es) : Holds (t :: ts) (e :: es) := h.append h'

/-- More trees hold the same. -/
theorem sublist (h : Holds ts es) (sub : ts.Sublist us) : Holds us es where
  demand := Nat.le_trans h.demand (sub.flatMap Tree.tokens).length_le
  texts text mem := by
    rw [textsInList_eq]
    exact (sub.flatMap textsIn).subset (textsInList_eq ts ▸ h.texts text mem)

theorem of_mem (h : Holds [t] es) (mem : t ∈ ts) : Holds ts es :=
  h.sublist (List.singleton_sublist.2 mem)

/-- What needs no temporary and has no text. -/
theorem of_value (demand : e.demand = 0) (texts : e.texts = []) : Holds ts [e] where
  demand := by
    rw [demandAll, demand, demandAll]
    exact Nat.zero_le _
  texts := by
    rw [textsAll, texts, textsAll]
    nofun

theorem broken {before : List Expression} {defect : Defect} {span : Span} :
    Holds ts [.broken before defect span] :=
  of_value (by rw [Expression.demand]) (by rw [Expression.texts])

/-- One operator more, which has a token of its own. -/
theorem operation (h : Holds ts es) (isLeaf : sign.isLeaf) (demand : e.demand = demandAll es + 1)
    (texts : e.texts = textsAll es) : Holds (sign :: ts) [e] where
  demand := by
    have one : sign.tokens.length = 1 := by
      cases sign with
      | leaf => rw [Tree.tokens_leaf]; rfl
      | node => cases isLeaf
    have le := h.demand
    rw [demandAll, demandAll, demand, List.flatMap_cons, List.length_append, one]
    omega
  texts := by
    rw [textsAll, textsAll, texts, List.append_nil]
    exact (h.sublist (List.sublist_cons_self ..)).texts

/-- It makes no difference in which order the trees are. -/
theorem perm (h : Holds ts es) (same : ts.Perm us) : Holds us es where
  demand := (same.flatMap_right Tree.tokens).length_eq ▸ h.demand
  texts text mem := by
    rw [textsInList_eq]
    exact (same.flatMap_right textsIn).subset (textsInList_eq ts ▸ h.texts text mem)

/-- What is below a tree that is no text. -/
theorem below (h : Holds t.children es) (other : t.name ≠ "string") : Holds [t] es := by
  cases t with
  | leaf => exact h.sublist (List.nil_sublist _)
  | node name label choice children =>
    have named : name ≠ "string" := other
    refine ⟨?_, fun text mem => ?_⟩
    · rw [List.flatMap_singleton, Tree.tokens_node]
      exact h.demand
    · rw [textsInList_eq, List.flatMap_singleton, textsIn_node named, ← textsInList_eq]
      exact h.texts text mem

end Holds

/-- Whether a tree can be read without a defect that has to do with its texts or its calls. -/
structure Readable (t : Tree) : Prop where
  /-- What should start with a token does. -/
  opens : ∀ u ∈ t.parts, u.name ∈ openers → Opens u
  /-- All texts have a value. -/
  texts : ∀ x ∈ textsIn t, ∃ text, x = .ok text

namespace Readable

variable {t u : Tree}

/-- An inner tree is no text. -/
theorem name_ne (h : Readable t) (inner : t.isLeaf = false) : t.name ≠ "string" := by
  rintro is
  cases t with
  | leaf => cases inner
  | node name label choice children =>
    obtain rfl : name = "string" := is
    obtain ⟨text, eq⟩ := h.texts _ (List.mem_singleton_self _)
    cases eq

theorem isLeaf_of_mem (mem : u ∈ t.children) : t.isLeaf = false := by
  cases t with
  | leaf => cases mem
  | node => rfl

/-- What is below can be read as well. -/
theorem below (h : Readable t) (mem : u ∈ t.children) : Readable u where
  opens v mem' := h.opens v (Tree.parts_subset (Tree.mem_parts_of_mem_children t.self_mem_parts mem) mem')
  texts x mem' := by
    have other := h.name_ne (isLeaf_of_mem mem)
    cases t with
    | leaf => cases mem
    | node name label choice children =>
      have named : name ≠ "string" := other
      refine h.texts x ?_
      rw [textsIn_node named]
      exact List.mem_flatMap.2 ⟨u, mem, mem'⟩

end Readable

/-- What is held by a tree below. -/
theorem Holds.lift {t u : Tree} {es : List Expression} (h : Holds [u] es) (readable : Readable t)
    (mem : u ∈ t.children) : Holds [t] es :=
  (h.of_mem mem).below (readable.name_ne (Readable.isLeaf_of_mem mem))

/-! ## Expressions -/

/-- Whether what can be said of a tree is held by it. -/
structure Reading.Within (r : Reading) (t : Tree) : Prop where
  /-- The expression. -/
  expression : Holds [t] [r.expression]
  /-- The base of an address. -/
  split : ∀ x ∈ r.split, Holds [t] [x.1]
  /-- The expressions below. -/
  items : Holds [t] r.items

namespace Reading

variable {t whole sign : Tree} {ts us : List Tree} {parts : List Part} {left right : Expression}

/-- Only a token can be the sign of an operator. -/
theorem isLeaf_of_ofSign? {op : Operator}
    (found : Operator.ofSign? ((sign.token?.map (·.lexeme)).getD "") = some op) : sign.isLeaf := by
  cases sign with
  | leaf => rfl
  | node => cases found

theorem isLeaf_of_isSign {text : String} (h : isSign sign text) : sign.isLeaf := by
  cases sign with
  | leaf => rfl
  | node => cases h

theorem holds_binaryOf (h : Holds ts [left]) (h' : Holds us [right]) :
    Holds (ts ++ sign :: us) [binaryOf sign left right] := by
  unfold binaryOf
  split
  · rename_i op found
    have both : Holds (ts ++ us) [left, right] := h.append h'
    refine (both.operation (isLeaf_of_ofSign? found) ?_ ?_).perm List.perm_middle.symm
    · simp only [Expression.demand, demandAll, Nat.add_zero]
    · simp only [Expression.texts, textsAll, List.append_nil]
  · exact .broken

theorem holds_chainFrom (within : ∀ p ∈ parts, p.2.Within p.1) (h : Holds ts [left]) :
    Holds (ts ++ parts.map Prod.fst) [chainFrom whole left parts] := by
  fun_induction chainFrom whole left parts generalizing ts with
  | case1 left => simpa using h
  | case2 left sign => exact .broken
  | case3 left sign operand rest ih =>
    have inside := within operand (List.mem_cons_of_mem _ List.mem_cons_self)
    have others : ∀ p ∈ rest, p.2.Within p.1 := fun p mem =>
      within p (List.mem_cons_of_mem _ (List.mem_cons_of_mem _ mem))
    have joined : Holds (ts ++ sign.1 :: [operand.1])
        [binaryOf sign.1 left operand.2.expression] := holds_binaryOf h inside.expression
    have step := ih others joined
    simpa using step

theorem holds_chain (within : ∀ p ∈ parts, p.2.Within p.1) :
    Holds (parts.map Prod.fst) [chain whole parts] := by
  cases parts with
  | nil => exact .broken
  | cons first rest =>
    obtain ⟨first', others⟩ := List.forall_mem_cons.1 within
    exact holds_chainFrom others first'.expression

theorem holds_unary (within : ∀ p ∈ parts, p.2.Within p.1) :
    Holds (parts.map Prod.fst) [unary whole parts] := by
  match parts, within with
  | [], _ => exact .broken
  | [single], within => exact (within single (List.mem_singleton_self _)).expression
  | [sign, operand], within =>
    have inside := (within operand (List.mem_cons_of_mem _ List.mem_cons_self)).expression
    simp only [unary]
    split
    · rename_i minus
      refine inside.operation (isLeaf_of_isSign minus) ?_ ?_
      · simp only [Expression.demand, demandAll, Nat.add_zero]
      · simp only [Expression.texts, textsAll, List.append_nil]
    · split
      · rename_i not
        refine inside.operation (isLeaf_of_isSign not) ?_ ?_
        · simp only [Expression.demand, demandAll, Nat.add_zero]
        · simp only [Expression.texts, textsAll, List.append_nil]
      · split
        · exact .broken
        · exact .broken
  | [opening, inner, closing], within =>
    have inside := (within inner (List.mem_cons_of_mem _ List.mem_cons_self)).expression
    simp only [unary]
    split
    · exact inside.of_mem (by simp)
    · exact .broken
  | _ :: _ :: _ :: _ :: _, _ => exact .broken

/-- What a tree that starts with a token has before its other parts. -/
theorem exists_opening (below : whole.children = parts.map Prod.fst) (opens : Opens whole)
    (some : parts ≠ []) : ∃ first others, parts = first :: others ∧ Opening first.1 := by
  rcases opens with isLeaf | ⟨first, rest, eq, opening⟩
  · cases whole with
    | node => cases isLeaf
    | leaf => exact absurd (List.map_eq_nil_iff.1 below.symm) some
  · rw [below] at eq
    obtain ⟨p, others, rfl, rfl, -⟩ := List.map_eq_cons_iff.1 eq
    exact ⟨p, others, rfl, opening⟩

theorem holds_call (below : whole.children = parts.map Prod.fst) (opens : Opens whole)
    (within : ∀ p ∈ parts, p.2.Within p.1) : Holds (parts.map Prod.fst) [call whole parts] := by
  unfold call
  split
  · exact .broken
  rename_i callee found
  have nonempty : parts ≠ [] := by
    rintro rfl
    rw [Tree.labeled?, below] at found
    cases found
  obtain ⟨first, others, rfl, opening⟩ := exists_opening below opens nonempty
  rw [List.find?_cons_of_neg (by simpa using opening.name)]
  have inside : Holds (others.map Prod.fst)
      (((others.find? fun p => p.1.name == "arguments").map (·.2.items)).getD []) := by
    cases arguments : others.find? fun p => p.1.name == "arguments" with
    | none => exact .nil
    | some p =>
      have mem := List.mem_of_find?_eq_some arguments
      exact (within p (List.mem_cons_of_mem _ mem)).items.of_mem (List.mem_map_of_mem mem)
  exact inside.operation opening.isLeaf (by rw [Expression.demand]) (by rw [Expression.texts])

theorem holds_address {r : Reading} (within : r.Within t) : Holds [t] [r.address.1] := by
  unfold address
  cases found : r.split with
  | none => exact within.expression
  | some x => exact within.split x found

theorem holds_load (below : whole.children = parts.map Prod.fst) (opens : Opens whole)
    (within : ∀ p ∈ parts, p.2.Within p.1) : Holds (parts.map Prod.fst) [load whole parts] := by
  unfold load
  split
  · exact .broken
  rename_i u r found
  obtain ⟨first, others, rfl, opening⟩ := exists_opening below opens (by rintro rfl; cases found)
  rw [List.find?_cons_of_neg (by simpa using opening.label)] at found
  have mem := List.mem_of_find?_eq_some found
  have inside := holds_address (within _ (List.mem_cons_of_mem _ mem))
  refine (inside.of_mem (List.mem_map_of_mem mem)).operation opening.isLeaf ?_ ?_
  · simp only [Expression.demand, demandAll, Nat.add_zero]
  · simp only [Expression.texts, textsAll, List.append_nil]

/-- The expressions of some of the parts. -/
theorem holds_map (within : ∀ p ∈ parts, p.2.Within p.1) :
    Holds (parts.map Prod.fst) (parts.map (·.2.expression)) := by
  induction parts with
  | nil => exact .nil
  | cons p parts ih =>
    obtain ⟨first, others⟩ := List.forall_mem_cons.1 within
    exact first.expression.cons (ih others)

theorem holds_splitSum (within : ∀ p ∈ parts, p.2.Within p.1) :
    ∀ x ∈ splitSum whole parts, Holds (parts.map Prod.fst) [x.1] := by
  intro x mem
  unfold splitSum at mem
  dsimp only at mem
  split at mem
  · have taken := List.take_sublist (parts.length - 2) parts
    have inside (t : Tree) :
        Holds (parts.map Prod.fst) [chain t (parts.take (parts.length - 2))] :=
      (holds_chain fun p mem => within p (taken.subset mem)).sublist (taken.map Prod.fst)
    obtain ⟨value, -, mem⟩ := Option.bind_eq_some_iff.1 mem
    split at mem
    · obtain rfl := Option.some.inj mem
      exact inside _
    · split at mem
      · obtain rfl := Option.some.inj mem
        exact inside _
      · cases mem
  · cases mem

/-- The expression of a tree that is no text. -/
theorem holds_expressionOf (below : t.children = parts.map Prod.fst)
    (opens : t.name ∈ openers → Opens t) (other : t.name ≠ "string")
    (within : ∀ p ∈ parts, p.2.Within p.1) : Holds [t] [expressionOf t parts] := by
  have ofParts {e : Expression} (h : Holds (parts.map Prod.fst) [e]) : Holds [t] [e] :=
    Holds.below (below ▸ h) other
  unfold expressionOf
  split
  case h_7 => exact ofParts (holds_unary within)
  case h_8 =>
    split
    · exact .of_value (by rw [Expression.demand]) (by rw [Expression.texts])
    · exact .broken
  case h_9 is => exact absurd is other
  case h_10 => exact .of_value (by rw [Expression.demand]) (by rw [Expression.texts])
  case h_11 is => exact ofParts (holds_call below (opens (by rw [is]; decide)) within)
  case h_12 is => exact ofParts (holds_load below (opens (by rw [is]; decide)) within)
  case h_13 => exact .broken
  all_goals exact ofParts (holds_chain within)

/-- What can be said of a tree is held by it, if this is so for its parts. -/
theorem within_ofParts (below : t.children = parts.map Prod.fst) (opens : t.name ∈ openers → Opens t)
    (other : t.name ≠ "string") (within : ∀ p ∈ parts, p.2.Within p.1) : (ofParts t parts).Within t where
  expression := holds_expressionOf below opens other within
  split x mem := by
    refine Holds.below (below ▸ ?_) other
    change x ∈ splitOf t parts at mem
    unfold splitOf at mem
    split at mem
    · exact holds_splitSum within x mem
    · split at mem
      · rename_i single
        exact (within single (List.mem_singleton_self _)).split x mem
      · cases mem
  items := by
    refine Holds.below (below ▸ ?_) other
    have kept : (parts.filter fun p => !p.1.isLeaf).Sublist parts := List.filter_sublist
    exact (holds_map fun p mem => within p (kept.subset mem)).sublist (kept.map Prod.fst)

/-- A text is held by its leaf. -/
theorem within_text {label terminal : Option String} {token : Token}
    (readable : Readable (.leaf "string" label terminal token)) :
    (ofTree (.leaf "string" label terminal token)).Within (.leaf "string" label terminal token) where
  expression := by
    have texts := readable.texts
    cases value : token.str? with
    | none =>
      have bad := texts (.error (Tree.leaf "string" label terminal token).span)
        (by simp [textsIn, value])
      obtain ⟨text, eq⟩ := bad
      cases eq
    | some text =>
      have read : (ofTree (.leaf "string" label terminal token)).expression = .text text := by
        show Expression.text (token.str?.getD "") = _
        rw [value]
        rfl
      rw [read]
      refine ⟨?_, ?_⟩
      · simp [demandAll, Expression.demand]
      · simp [textsAll, Expression.texts, textsInList, textsIn, value]
  split := nofun
  items := .nil

theorem fst_partsOf (ts : List Tree) : ts = (partsOf ts).map Prod.fst := by
  induction ts with
  | nil => rfl
  | cons t ts ih => rw [partsOf, List.map_cons, ← ih]

mutual

/-- **What can be said of a tree** is held by it, if the tree can be read. -/
theorem within_ofTree (t : Tree) (readable : Readable t) : (ofTree t).Within t := by
  cases t with
  | leaf name label terminal token =>
    by_cases is : name = "string"
    · subst is
      exact within_text readable
    · exact within_ofParts rfl (readable.opens _ (Tree.self_mem_parts _)) is nofun
  | node name label choice children =>
    exact within_ofParts (fst_partsOf children) (readable.opens _ (Tree.self_mem_parts _))
      (readable.name_ne rfl) (within_partsOf children fun u mem => readable.below mem)

theorem within_partsOf (ts : List Tree) (readable : ∀ t ∈ ts, Readable t) :
    ∀ p ∈ partsOf ts, p.2.Within p.1 := by
  cases ts with
  | nil => nofun
  | cons t ts =>
    obtain ⟨first, others⟩ := List.forall_mem_cons.1 readable
    rw [partsOf]
    exact List.forall_mem_cons.2 ⟨within_ofTree t first, within_partsOf ts others⟩

end

end Reading

/-! ## Statements -/

namespace Statement

variable {t : Tree} {ts : List Tree} {parts : List (Tree × Statement)}

theorem expressionsAll_map (parts : List (Tree × Statement)) :
    expressionsAll (parts.map (·.2)) = parts.flatMap fun p => p.2.expressions := by
  induction parts with
  | nil => rfl
  | cons p parts ih => rw [List.map_cons, expressionsAll, ih, List.flatMap_cons]

/-- What can be said of a tree below is held. -/
theorem holds_below (readable : Readable t) {c : Tree} (mem : c ∈ t.children) :
    Holds [t] [(Reading.ofTree c).expression] ∧ Holds [t] [(Reading.ofTree c).address.1] := by
  have within := Reading.within_ofTree c (readable.below mem)
  exact ⟨within.expression.lift readable mem, (Reading.holds_address within).lift readable mem⟩

/-- What can be said of the tree below with a label is held. -/
theorem holds_labeled? (readable : Readable t) {label : String} {c : Tree}
    (found : t.labeled? label = some c) :
    Holds [t] [(Reading.ofTree c).expression] ∧ Holds [t] [(Reading.ofTree c).address.1] :=
  holds_below readable (List.mem_of_find?_eq_some found)

theorem holds_conditional {label : String} {make : Expression → Statement → Statement}
    (readable : Readable t) (makes : ∀ condition u b, Holds [t] [condition] → (u, b) ∈ parts →
      ∀ e ∈ (make condition b).expressions, Holds [t] [e]) :
    ∀ e ∈ (conditional t label parts make).expressions, Holds [t] [e] := by
  unfold conditional
  split
  · nofun
  · rename_i c condition
    split
    · rename_i found
      obtain ⟨u, mem⟩ := mem_of_labeled? found
      exact makes _ u _ (holds_labeled? readable condition).1 mem
    · nofun

/-- The expressions of the statement of a tree are held by the tree, if those of its parts are. -/
theorem holds_ofParts (readable : Readable t)
    (inside : ∀ u b, (u, b) ∈ parts → ∀ e ∈ b.expressions, Holds [t] [e]) :
    ∀ e ∈ (ofParts t parts).expressions, Holds [t] [e] := by
  unfold ofParts
  split
  -- one case for each kind of statement that a name stands for, and one for all other names
  case h_1 =>
    intro e mem
    rw [expressions, expressionsAll_map, List.mem_flatMap] at mem
    obtain ⟨⟨u, b⟩, among, mem⟩ := mem
    exact inside u b (List.mem_of_mem_filter among) e mem
  case h_2 =>
    exact holds_conditional readable fun condition u b first mem =>
      List.forall_mem_cons.2 ⟨first, inside u b mem⟩
  case h_3 =>
    refine holds_conditional readable fun condition u b first mem => ?_
    split
    · rename_i found
      obtain ⟨u', mem'⟩ := mem_of_labeled? found
      exact List.forall_mem_cons.2
        ⟨first, List.forall_mem_append.2 ⟨inside u b mem, inside u' _ mem'⟩⟩
    · exact List.forall_mem_cons.2 ⟨first, inside u b mem⟩
  case h_4 =>
    cases found : t.labeled? "value" with
    | none => exact fun _ none => by cases none
    | some c => exact List.forall_mem_singleton.2 (holds_labeled? readable found).1
  case h_5 =>
    unfold assignment
    split
    · exact fun _ none => by cases none
    · exact fun _ none => by cases none
    · rename_i found
      exact List.forall_mem_singleton.2 (holds_labeled? readable found).1
  case h_6 =>
    unfold storing
    split
    · exact fun _ none => by cases none
    · rename_i a address
      dsimp only
      split
      · exact fun _ none => by cases none
      · rename_i value found
        exact List.forall_mem_cons.2 ⟨(holds_labeled? readable address).2,
          List.forall_mem_singleton.2 (holds_labeled? readable found).1⟩
  case h_7 =>
    split
    · rename_i c found
      exact List.forall_mem_singleton.2 (holds_below readable (List.mem_of_find?_eq_some found)).1
    · exact fun _ none => by cases none
  case h_8 => exact fun _ none => by cases none
  case h_9 => exact fun _ none => by cases none

mutual

/-- **The expressions of the statement of a tree** are held by the tree. -/
theorem holds_ofTree (t : Tree) (readable : Readable t) :
    ∀ e ∈ (ofTree t).expressions, Holds [t] [e] := by
  cases t with
  | leaf name label terminal token =>
    exact holds_ofParts readable fun _ _ none => by cases none
  | node name label choice children =>
    refine holds_ofParts readable fun u b mem e among => ?_
    obtain ⟨inside, held⟩ := holds_partsOf children (fun u mem => readable.below mem) u b mem
    exact (held e among).lift readable inside

theorem holds_partsOf (ts : List Tree) (readable : ∀ t ∈ ts, Readable t) :
    ∀ u b, (u, b) ∈ partsOf ts → u ∈ ts ∧ ∀ e ∈ b.expressions, Holds [u] [e] := by
  intro u b mem
  cases ts with
  | nil => cases mem
  | cons t ts =>
    obtain ⟨first, others⟩ := List.forall_mem_cons.1 readable
    rcases List.mem_cons.1 mem with eq | mem
    · obtain ⟨rfl, rfl⟩ := Prod.mk.inj eq
      exact ⟨List.mem_cons_self, holds_ofTree u first⟩
    · obtain ⟨inside, held⟩ := holds_partsOf ts others u b mem
      exact ⟨List.mem_cons_of_mem _ inside, held⟩

end

end Statement

/-! ## Programs -/

/-- Leaving out what was there before makes no list longer. -/
theorem length_eraseDups_le {α : Type} [BEq α] (as : List α) : as.eraseDups.length ≤ as.length := by
  generalize length : as.length = n
  induction n using Nat.strongRecOn generalizing as with
  | ind n ih =>
    cases as with
    | nil => exact Nat.zero_le _
    | cons a as =>
      rw [List.length_cons] at length
      have fewer := List.length_filter_le (fun b => !b == a) as
      have le := ih _ (by omega) (as.filter fun b => !b == a) rfl
      rw [List.eraseDups_cons, List.length_cons]
      omega

mutual

/-- No more names are assigned in a tree than it has tokens. -/
theorem length_assignedIn_le (t : Tree) (readable : Readable t) :
    (assignedIn t).length ≤ t.tokens.length := by
  cases t with
  | leaf => exact Nat.zero_le _
  | node name label choice children =>
    rw [assignedIn, Tree.tokens_node]
    split
    · rename_i is
      obtain rfl := beq_iff_eq.1 is
      have one : (((Tree.node "assignment" label choice children).labeled? "target").map
          Tree.text).toList.length ≤ 1 := by
        cases ((Tree.node "assignment" label choice children).labeled? "target").map Tree.text <;> simp
      have opener : "assignment" ∈ openers := by decide
      rcases readable.opens _ (Tree.self_mem_parts _) opener with isLeaf | ⟨first, rest, eq, opening⟩
      · cases isLeaf
      · obtain rfl : children = first :: rest := eq
        cases first with
        | node => cases opening.isLeaf
        | leaf =>
          refine Nat.le_trans one ?_
          simp
    · exact length_assignedInList_le children fun u mem => readable.below mem

theorem length_assignedInList_le (ts : List Tree) (readable : ∀ t ∈ ts, Readable t) :
    (assignedInList ts).length ≤ (ts.flatMap Tree.tokens).length := by
  cases ts with
  | nil => exact Nat.zero_le _
  | cons t ts =>
    obtain ⟨first, others⟩ := List.forall_mem_cons.1 readable
    rw [assignedInList, List.flatMap_cons, List.length_append, List.length_append]
    exact Nat.add_le_add (length_assignedIn_le t first) (length_assignedInList_le ts others)

end

mutual

/-- **The texts in a tree** are the values of its tokens that are texts, if all stand in leaves
that are read as texts. -/
theorem textsIn_eq (t : Tree) (readable : Readable t)
    (texts : ∀ u ∈ t.parts, ∀ token ∈ u.token?, token.str?.isSome → u.name = "string") :
    textsIn t = (t.tokens.filterMap Token.str?).map .ok := by
  cases t with
  | leaf name label terminal token =>
    have here := texts _ (Tree.self_mem_parts _) token rfl
    have valued := readable.texts
    rw [textsIn] at valued ⊢
    rw [Tree.tokens_leaf]
    cases value : token.str? with
    | some text =>
      rw [value] at here
      have is : name = "string" := here rfl
      simp [is, value]
    | none =>
      rw [value] at valued
      split
      · rename_i is
        rw [if_pos is] at valued
        obtain ⟨text, eq⟩ := valued _ (List.mem_singleton_self _)
        cases eq
      · simp [value]
  | node name label choice children =>
    have named : name ≠ "string" := readable.name_ne rfl
    rw [Tree.parts] at texts
    rw [textsIn_node named, Tree.tokens_node, ← textsInList_eq]
    exact textsInList_eq_map children (fun u mem => readable.below mem) fun u mem =>
      texts u (List.mem_cons_of_mem _ mem)

theorem textsInList_eq_map (ts : List Tree) (readable : ∀ t ∈ ts, Readable t)
    (texts : ∀ u ∈ Tree.partsOfList ts, ∀ token ∈ u.token?, token.str?.isSome → u.name = "string") :
    textsInList ts = ((ts.flatMap Tree.tokens).filterMap Token.str?).map .ok := by
  cases ts with
  | nil => rfl
  | cons t ts =>
    obtain ⟨first, others⟩ := List.forall_mem_cons.1 readable
    rw [Tree.partsOfList, List.forall_mem_append] at texts
    rw [textsInList, List.flatMap_cons, List.filterMap_append, List.map_append,
      textsIn_eq t first texts.1, textsInList_eq_map ts others texts.2]

end

end Polyglot.B
