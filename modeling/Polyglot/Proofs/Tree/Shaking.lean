import Polyglot.Tree.Shake
import Mathlib.Data.List.Basic

/-!
# What shaking keeps

Shaking takes trees out and puts those below them in their place. So it never puts a token
in, never takes one twice and never changes the order (`Shake.tokens_shake_sublist`), and
what is shaken once should have nothing left to be taken out.

Both are so for splicing. Chaining is another matter: the last child of a tree is taken out
for its name alone, whatever it is.

* **A leaf is lost.** There is nothing below a leaf to be put in its place, so the token of a
  leaf that is taken out is gone. No other token is (`Shake.tokens_shake_iff`).
* **A chain goes on.** A last child with nothing below it, leaf or not, leaves the one before
  it as the last. If that one has the name too, it would have to be taken out as well, but
  only shaking once more does this (`Shake.shake_shake_iff`).

Both conditions are on the trees that stay (`Shake.everyKept`), with what shaking has left
of the trees below them. No tree is taken out for its name where no names are chained, so
neither can happen there.
-/

namespace Polyglot

namespace Tree

mutual

/-- The number of trees in a tree. -/
def size : Tree → Nat
  | leaf .. => 1
  | node _ _ _ children => 1 + sizeOfList children

/-- The number of trees in a list of trees. -/
def sizeOfList : List Tree → Nat
  | [] => 0
  | t :: ts => t.size + sizeOfList ts

end

@[simp] theorem size_leaf (name : String) (label terminal : Option String) (token : Token) :
    (leaf name label terminal token).size = 1 := by rw [size]

@[simp] theorem size_node (name : String) (label : Option String) (choice : Option Nat)
    (children : List Tree) : (node name label choice children).size = 1 + sizeOfList children := by
  rw [size]

@[simp] theorem sizeOfList_nil : sizeOfList [] = 0 := by rw [sizeOfList]

@[simp] theorem sizeOfList_cons (t : Tree) (ts : List Tree) :
    sizeOfList (t :: ts) = t.size + sizeOfList ts := by rw [sizeOfList]

@[simp] theorem sizeOfList_append (ts us : List Tree) :
    sizeOfList (ts ++ us) = sizeOfList ts + sizeOfList us := by
  induction ts with
  | nil => simp
  | cons t ts ih => simp [ih, Nat.add_assoc]

@[simp] theorem size_withLabel (label : Option String) (t : Tree) :
    (t.withLabel label).size = t.size := by cases t <;> simp [withLabel]

end Tree

/-- Two lists that are put together from sublists are the same just if the parts are. -/
theorem append_eq_append_iff_of_sublist {α : Type} {as as' bs bs' : List α} (h : as.Sublist as')
    (h' : bs.Sublist bs') : as ++ bs = as' ++ bs' ↔ as = as' ∧ bs = bs' := by
  refine ⟨fun eq => ?_, fun ⟨eq, eq'⟩ => by rw [eq, eq']⟩
  have le := h.length_le
  have le' := h'.length_le
  have length := congrArg List.length eq
  rw [List.length_append, List.length_append] at length
  exact ⟨h.eq_of_length (by omega), h'.eq_of_length (by omega)⟩

/-- What lies between two lists is the same as both just if these are the same. -/
theorem eq_iff_of_sublist {α : Type} {as bs cs : List α} (h : as.Sublist bs) (h' : bs.Sublist cs) :
    as = cs ↔ bs = cs ∧ as = bs := by
  refine ⟨?_, fun ⟨eq, eq'⟩ => eq'.trans eq⟩
  rintro rfl
  have eq := h.antisymm h'
  exact ⟨eq.symm, eq⟩

namespace Shake

/-! ## The trees that stay -/

mutual

/-- Whether something is so at all trees that stay of a tree that is not the root: for their
names and what shaking leaves of the trees below them. -/
def everyKeptInner (s : Shake) (p : String → List Tree → Bool) : Tree → Bool
  | .leaf .. => true
  | .node name _ _ children =>
    everyKeptList s p children && (s.isSpliced name || p name (s.shakeList children))

/-- Whether something is so at all trees that stay of a list of trees. -/
def everyKeptList (s : Shake) (p : String → List Tree → Bool) : List Tree → Bool
  | [] => true
  | t :: ts => everyKeptInner s p t && everyKeptList s p ts

end

/-- Whether something is so at all trees that stay, the root among them. -/
def everyKept (s : Shake) (p : String → List Tree → Bool) : Tree → Bool
  | .leaf .. => true
  | .node name _ _ children => s.everyKeptList p children && p name (s.shakeList children)

section

variable {s : Shake} {p : String → List Tree → Bool}

mutual

theorem everyKeptInner_of_forall (all : ∀ name children, p name children) (t : Tree) :
    s.everyKeptInner p t := by
  cases t with
  | leaf => rw [everyKeptInner]
  | node name label choice children =>
    rw [everyKeptInner, everyKeptList_of_forall all children, all, Bool.or_true, Bool.and_true]

theorem everyKeptList_of_forall (all : ∀ name children, p name children) (ts : List Tree) :
    s.everyKeptList p ts := by
  cases ts with
  | nil => rw [everyKeptList]
  | cons t ts =>
    rw [everyKeptList, everyKeptInner_of_forall all t, everyKeptList_of_forall all ts, Bool.and_true]

end

theorem everyKept_of_forall (all : ∀ name children, p name children) (t : Tree) :
    s.everyKept p t := by
  cases t with
  | leaf => rw [everyKept]
  | node name label choice children =>
    rw [everyKept, everyKeptList_of_forall all children, all, Bool.and_true]

end

/-! ## Splicing and chaining -/

section

variable (label : Option String) (t : Tree)

theorem inheritLabel_eq : inheritLabel label t = t ∨ inheritLabel label t = t.withLabel label := by
  unfold inheritLabel
  split
  · exact .inl rfl
  · exact .inr rfl

/-- From a tree without a label nothing is inherited. -/
@[simp] theorem inheritLabel_none : inheritLabel none t = t := by
  unfold inheritLabel
  split
  · rfl
  · rename_i unlabeled
    cases t <;> cases Option.not_isSome_iff_eq_none.1 unlabeled <;> rfl

@[simp] theorem tokens_inheritLabel : (inheritLabel label t).tokens = t.tokens := by
  rcases inheritLabel_eq label t with eq | eq <;> simp [eq]

@[simp] theorem size_inheritLabel : (inheritLabel label t).size = t.size := by
  rcases inheritLabel_eq label t with eq | eq <;> simp [eq]

@[simp] theorem name_inheritLabel : (inheritLabel label t).name = t.name := by
  rcases inheritLabel_eq label t with eq | eq <;> simp [eq]

@[simp] theorem isLeaf_inheritLabel : (inheritLabel label t).isLeaf = t.isLeaf := by
  rcases inheritLabel_eq label t with eq | eq
  · rw [eq]
  · rw [eq]
    cases t <;> rfl

end

section

variable {s : Shake} {name : String} {label : Option String} {choice : Option Nat}
  {children : List Tree}

/-- What shaking makes of a tree that stays, if no trees are chained. -/
theorem shakeInner_kept (kept : s.isSpliced name = false) (unchained : s.chain = []) :
    s.shakeInner (.node name label choice children)
      = [.node name label choice (s.shakeList children)] := by
  rw [shakeInner]
  simp only [kept, Bool.false_eq_true, ↓reduceIte, absorb, unchained]
  rfl

/-- What shaking makes of a tree that is taken out, if it has no label. -/
theorem shakeInner_spliced (spliced : s.isSpliced name) :
    s.shakeInner (.node name none choice children) = s.shakeList children := by
  have inherit : inheritLabel none = id := funext fun t => inheritLabel_none t
  rw [shakeInner]
  simp only [spliced, ↓reduceIte, inherit, List.map_id]

end

/-- Whether a tree takes nothing over from those below: its name is not chained, or is not
the name of the last of them. -/
def Calm (s : Shake) (name : String) (children : List Tree) : Prop :=
  s.chain.contains name → ∀ last ∈ children.getLast?, last.name ≠ name

theorem Calm.concat {s : Shake} {name : String} {before : List Tree} {last : Tree} :
    s.Calm name (before ++ [last]) ↔ (s.chain.contains name → last.name ≠ name) := by
  simp only [Calm, List.getLast?_concat, Option.mem_def, Option.some.injEq, forall_eq']

/-- What a tree takes over: nothing, or what is below a last child of its name. -/
theorem absorb_cases (s : Shake) (name : String) (children : List Tree) :
    s.Calm name children ∧ s.absorb name children = children
      ∨ ∃ before last, children = before ++ [last] ∧ last.name = name
        ∧ s.chain.contains name ∧ s.absorb name children = before ++ last.children := by
  unfold absorb chained
  split
  · rename_i isChained
    rcases List.eq_nil_or_concat' children with rfl | ⟨before, last, rfl⟩
    · exact .inl ⟨nofun, rfl⟩
    · rw [List.getLast?_concat, List.dropLast_concat]
      dsimp only
      split
      · rename_i same
        exact .inr ⟨before, last, rfl, same, isChained, rfl⟩
      · rename_i other
        exact .inl ⟨Calm.concat.2 fun _ => other, rfl⟩
  · rename_i unchained
    exact .inl ⟨fun isChained => absurd isChained unchained, rfl⟩

/-! ## Tokens -/

/-- Whether no token is lost when a tree takes over what is below its last child: that child
is no leaf, or has another name. -/
def sparesLast (s : Shake) (name : String) (children : List Tree) : Bool :=
  !s.chain.contains name || children.getLast?.all fun last => last.name != name || !last.isLeaf

theorem tokens_children (t : Tree) :
    (t.children.flatMap Tree.tokens).Sublist t.tokens
      ∧ (t.children.flatMap Tree.tokens = t.tokens ↔ t.isLeaf = false) := by
  cases t with
  | leaf => simp [Tree.children, Tree.isLeaf, Tree.token?]
  | node => simp [Tree.children, Tree.isLeaf, Tree.token?]

theorem sparesLast_of_calm {s : Shake} {name : String} {children : List Tree}
    (calm : s.Calm name children) : s.sparesLast name children := by
  unfold sparesLast
  by_cases isChained : s.chain.contains name
  · rw [isChained, Bool.not_true, Bool.false_or, Option.all_eq_true]
    intro last mem
    rw [bne_iff_ne.2 (calm isChained last mem), Bool.true_or]
  · rw [Bool.eq_false_iff.2 isChained, Bool.not_false, Bool.true_or]

theorem tokens_absorb (s : Shake) (name : String) (children : List Tree) :
    ((s.absorb name children).flatMap Tree.tokens).Sublist (children.flatMap Tree.tokens)
      ∧ ((s.absorb name children).flatMap Tree.tokens = children.flatMap Tree.tokens
        ↔ s.sparesLast name children) := by
  rcases s.absorb_cases name children with ⟨calm, eq⟩ | ⟨before, last, rfl, rfl, isChained, eq⟩
  · rw [eq]
    exact ⟨.refl _, iff_of_true rfl (sparesLast_of_calm calm)⟩
  · obtain ⟨sublist, same⟩ := tokens_children last
    have spares : s.sparesLast last.name (before ++ [last]) ↔ last.isLeaf = false := by
      simp only [sparesLast, isChained, List.getLast?_concat, Option.all_some, bne_self_eq_false,
        Bool.not_true, Bool.false_or, Bool.not_eq_true']
    rw [eq, List.flatMap_append, List.flatMap_append, List.flatMap_singleton, List.append_cancel_left_eq,
      spares]
    exact ⟨sublist.append_left _, same⟩

mutual

theorem tokens_shakeInner (s : Shake) (t : Tree) :
    ((s.shakeInner t).flatMap Tree.tokens).Sublist t.tokens
      ∧ ((s.shakeInner t).flatMap Tree.tokens = t.tokens
        ↔ s.everyKeptInner s.sparesLast t) := by
  cases t with
  | leaf => simp [shakeInner, everyKeptInner]
  | node name label choice children =>
    obtain ⟨below, same⟩ := tokens_shakeList s children
    rw [shakeInner, everyKeptInner, Tree.tokens_node]
    split
    · rename_i spliced
      simp only [List.flatMap_map, tokens_inheritLabel, spliced, Bool.true_or, Bool.and_true]
      exact ⟨below, same⟩
    · rename_i kept
      obtain ⟨above, same'⟩ := s.tokens_absorb name (s.shakeList children)
      rw [List.flatMap_singleton, Tree.tokens_node, Bool.eq_false_iff.2 kept, Bool.false_or,
        Bool.and_eq_true, ← same, ← same']
      exact ⟨above.trans below, eq_iff_of_sublist above below⟩

theorem tokens_shakeList (s : Shake) (ts : List Tree) :
    ((s.shakeList ts).flatMap Tree.tokens).Sublist (ts.flatMap Tree.tokens)
      ∧ ((s.shakeList ts).flatMap Tree.tokens = ts.flatMap Tree.tokens
        ↔ s.everyKeptList s.sparesLast ts) := by
  cases ts with
  | nil => simp [shakeList, everyKeptList]
  | cons t ts =>
    obtain ⟨first, same⟩ := tokens_shakeInner s t
    obtain ⟨others, same'⟩ := tokens_shakeList s ts
    rw [shakeList, everyKeptList, List.flatMap_append, List.flatMap_cons,
      append_eq_append_iff_of_sublist first others, same, same', Bool.and_eq_true]
    exact ⟨first.append others, Iff.rfl⟩

end

/-- Shaking puts no token in and changes no order. -/
theorem tokens_shake_sublist (s : Shake) (t : Tree) : (s.shake t).tokens.Sublist t.tokens := by
  cases t with
  | leaf => rw [shake]
  | node name label choice children =>
    rw [shake, Tree.tokens_node, Tree.tokens_node]
    exact (s.tokens_absorb name _).1.trans (s.tokens_shakeList children).1

/-- Shaking keeps all tokens just if it takes out no leaf. -/
theorem tokens_shake_iff (s : Shake) (t : Tree) :
    (s.shake t).tokens = t.tokens ↔ s.everyKept s.sparesLast t := by
  cases t with
  | leaf => simp [shake, everyKept]
  | node name label choice children =>
    obtain ⟨above, same⟩ := s.tokens_absorb name (s.shakeList children)
    obtain ⟨below, same'⟩ := s.tokens_shakeList children
    rw [shake, everyKept, Tree.tokens_node, Tree.tokens_node, Bool.and_eq_true, ← same, ← same']
    exact eq_iff_of_sublist above below

/-- Shaking without chaining keeps all tokens. -/
theorem tokens_shake {s : Shake} (unchained : s.chain = []) (t : Tree) :
    (s.shake t).tokens = t.tokens :=
  (s.tokens_shake_iff t).2 <| everyKept_of_forall (fun name children => by
    rw [sparesLast, unchained]
    rfl) t

/-- **Source text in a shaken tree**: the tokens are some of those of the tree, in their
order and none of them twice; and they are all of them unless the last child of a tree that
stays is a leaf with the name of the tree, and the name is chained. -/
theorem shake_keeps_tokens (s : Shake) (t : Tree) :
    (s.shake t).tokens.Sublist t.tokens
      ∧ ((s.shake t).tokens = t.tokens ↔ s.everyKept s.sparesLast t) :=
  ⟨s.tokens_shake_sublist t, s.tokens_shake_iff t⟩

/-- A rule that has the name of a terminal, as the last of whose terms the terminal is asked
for: the token is lost when trees of this name are chained. -/
theorem shake_loses_token :
    ∃ (s : Shake) (t : Tree), (s.shake t).tokens ≠ t.tokens :=
  ⟨{ chain := ["identifier"] },
   .node "identifier" none (some 0)
    [.ofToken { type := "\"(\"", lexeme := "(" }, .ofToken { type := "identifier", lexeme := "x" }],
   by decide⟩

/-! ## Shaking again

A tree is settled if there is nothing in it to be taken out. Shaking leaves a settled tree
alone (`shakeList_of_settled`) and makes any other smaller (`size_shakeList`). -/

mutual

/-- Whether a tree that is not the root has nothing to be taken out. -/
def Settled (s : Shake) : Tree → Prop
  | .leaf .. => True
  | .node name _ _ children => ¬ s.isSpliced name ∧ s.Calm name children ∧ SettledList s children

/-- Whether a list of trees has nothing to be taken out. -/
def SettledList (s : Shake) : List Tree → Prop
  | [] => True
  | t :: ts => Settled s t ∧ SettledList s ts

end

section

variable {s : Shake}

theorem absorb_of_calm {name : String} {children : List Tree} (calm : s.Calm name children) :
    s.absorb name children = children := by
  rcases s.absorb_cases name children with ⟨-, eq⟩ | ⟨before, last, rfl, same, isChained, -⟩
  · exact eq
  · exact absurd same (Calm.concat.1 calm isChained)

mutual

theorem shakeInner_of_settled (t : Tree) (settled : s.Settled t) : s.shakeInner t = [t] := by
  cases t with
  | leaf => rw [shakeInner]
  | node name label choice children =>
    rw [Settled] at settled
    obtain ⟨kept, calm, below⟩ := settled
    rw [shakeInner, if_neg kept, shakeList_of_settled children below, absorb_of_calm calm]

theorem shakeList_of_settled (ts : List Tree) (settled : s.SettledList ts) :
    s.shakeList ts = ts := by
  cases ts with
  | nil => rw [shakeList]
  | cons t ts =>
    rw [SettledList] at settled
    rw [shakeList, shakeInner_of_settled t settled.1, shakeList_of_settled ts settled.2]
    rfl

end

theorem size_absorb (name : String) (children : List Tree) :
    Tree.sizeOfList (s.absorb name children) ≤ Tree.sizeOfList children
      ∧ (Tree.sizeOfList (s.absorb name children) = Tree.sizeOfList children
        → s.Calm name children) := by
  rcases s.absorb_cases name children with ⟨calm, eq⟩ | ⟨before, last, rfl, -, -, eq⟩
  · rw [eq]
    exact ⟨Nat.le_refl _, fun _ => calm⟩
  · have less : Tree.sizeOfList last.children < last.size := by
      cases last with
      | leaf => simp [Tree.children]
      | node => rw [Tree.children, Tree.size_node]; omega
    rw [eq, Tree.sizeOfList_append, Tree.sizeOfList_append, Tree.sizeOfList_cons,
      Tree.sizeOfList_nil]
    exact ⟨by omega, fun same => by omega⟩

theorem sizeOfList_map_inheritLabel (label : Option String) (ts : List Tree) :
    Tree.sizeOfList (ts.map (inheritLabel label)) = Tree.sizeOfList ts := by
  induction ts with
  | nil => rfl
  | cons t ts ih => rw [List.map_cons, Tree.sizeOfList_cons, Tree.sizeOfList_cons, size_inheritLabel, ih]

/-- What takes the place of a tree's children, when none of them is larger than it was. -/
theorem calm_of_size {name : String} {children : List Tree}
    (below : Tree.sizeOfList (s.shakeList children) ≤ Tree.sizeOfList children)
    (settles : Tree.sizeOfList (s.shakeList children) = Tree.sizeOfList children
      → s.SettledList children)
    (same : Tree.sizeOfList (s.absorb name (s.shakeList children)) = Tree.sizeOfList children) :
    s.Calm name children ∧ s.SettledList children := by
  obtain ⟨above, calms⟩ := size_absorb (s := s) name (s.shakeList children)
  have settled := settles (by omega)
  rw [shakeList_of_settled children settled] at calms same
  exact ⟨calms same, settled⟩

mutual

theorem size_shakeInner (t : Tree) :
    Tree.sizeOfList (s.shakeInner t) ≤ t.size
      ∧ (Tree.sizeOfList (s.shakeInner t) = t.size → s.Settled t) := by
  cases t with
  | leaf => simp [shakeInner, Settled]
  | node name label choice children =>
    obtain ⟨below, settles⟩ := size_shakeList children
    rw [shakeInner, Tree.size_node]
    split
    · rw [sizeOfList_map_inheritLabel]
      exact ⟨by omega, fun same => by omega⟩
    · rename_i kept
      have above := (size_absorb (s := s) name (s.shakeList children)).1
      rw [Tree.sizeOfList_cons, Tree.size_node, Tree.sizeOfList_nil, Settled]
      exact ⟨by omega, fun same => ⟨kept, calm_of_size below settles (by omega)⟩⟩

theorem size_shakeList (ts : List Tree) :
    Tree.sizeOfList (s.shakeList ts) ≤ Tree.sizeOfList ts
      ∧ (Tree.sizeOfList (s.shakeList ts) = Tree.sizeOfList ts → s.SettledList ts) := by
  cases ts with
  | nil => simp [shakeList, SettledList]
  | cons t ts =>
    obtain ⟨first, settles⟩ := size_shakeInner t
    obtain ⟨others, settles'⟩ := size_shakeList ts
    rw [shakeList, Tree.sizeOfList_append, Tree.sizeOfList_cons, SettledList]
    exact ⟨by omega, fun same => ⟨settles (by omega), settles' (by omega)⟩⟩

end

/-- A tree stays as it is just if there is nothing in it to be taken out. -/
theorem shake_node_iff (name : String) (label : Option String) (choice : Option Nat)
    (children : List Tree) :
    s.shake (.node name label choice children) = .node name label choice children
      ↔ s.Calm name children ∧ s.SettledList children := by
  rw [shake, Tree.node.injEq]
  constructor
  · intro ⟨_, _, _, eq⟩
    obtain ⟨below, settles⟩ := size_shakeList (s := s) children
    exact calm_of_size below settles (congrArg Tree.sizeOfList eq)
  · intro ⟨calm, settled⟩
    rw [shakeList_of_settled children settled, absorb_of_calm calm]
    exact ⟨rfl, rfl, rfl, rfl⟩

/-! ### What shaking leaves -/

theorem settledList_append (ts us : List Tree) :
    s.SettledList (ts ++ us) ↔ s.SettledList ts ∧ s.SettledList us := by
  induction ts with
  | nil => simp [SettledList]
  | cons t ts ih => rw [List.cons_append, SettledList, SettledList, ih, and_assoc]

theorem settledList_map_inheritLabel (label : Option String) (ts : List Tree) :
    s.SettledList (ts.map (inheritLabel label)) ↔ s.SettledList ts := by
  have one (t : Tree) : s.Settled (inheritLabel label t) ↔ s.Settled t := by
    rcases inheritLabel_eq label t with eq | eq
    · rw [eq]
    · rw [eq]
      cases t <;> simp [Tree.withLabel, Settled]
  induction ts with
  | nil => rfl
  | cons t ts ih =>
    rw [List.map_cons, SettledList, SettledList]
    exact and_congr (one t) ih

mutual

/-- No inner tree that shaking leaves below another has the name of a spliced one. -/
theorem not_isSpliced_of_mem_shakeInner (t : Tree) :
    ∀ u ∈ s.shakeInner t, u.isLeaf = false → ¬ s.isSpliced u.name := by
  cases t with
  | leaf => simp [shakeInner, Tree.isLeaf, Tree.token?]
  | node name label choice children =>
    rw [shakeInner]
    split
    · simpa using not_isSpliced_of_mem_shakeList children
    · rename_i kept
      simpa [Tree.isLeaf, Tree.token?, Tree.name] using kept

theorem not_isSpliced_of_mem_shakeList (ts : List Tree) :
    ∀ u ∈ s.shakeList ts, u.isLeaf = false → ¬ s.isSpliced u.name := by
  cases ts with
  | nil => simp [shakeList]
  | cons t ts =>
    rw [shakeList]
    exact List.forall_mem_append.2
      ⟨not_isSpliced_of_mem_shakeInner t, not_isSpliced_of_mem_shakeList ts⟩

end

end

/-- Whether taking over what is below the last child of a tree leaves no other last child to
do this with: there is something below it, or the one before it has another name. -/
def endsChain (s : Shake) (name : String) (children : List Tree) : Bool :=
  !s.chain.contains name || children.getLast?.all fun last =>
    last.name != name || !last.children.isEmpty
      || children.dropLast.getLast?.all fun former => former.name != name

section

variable {s : Shake}

theorem endsChain_of_calm {name : String} {children : List Tree} (calm : s.Calm name children) :
    s.endsChain name children := by
  unfold endsChain
  by_cases isChained : s.chain.contains name
  · rw [isChained, Bool.not_true, Bool.false_or, Option.all_eq_true]
    intro last mem
    rw [bne_iff_ne.2 (calm isChained last mem), Bool.true_or, Bool.true_or]
  · rw [Bool.eq_false_iff.2 isChained, Bool.not_false, Bool.true_or]

theorem endsChain_concat {name : String} {before : List Tree} {last : Tree}
    (same : last.name = name) (isChained : s.chain.contains name) :
    s.endsChain name (before ++ [last])
      ↔ (last.children = [] → s.Calm name before) := by
  subst same
  simp [endsChain, Calm, Option.all_eq_true, or_iff_not_imp_left, List.contains_iff_mem.1 isChained]

/-- One tree: what it takes over is settled, just if what it is given is and ends the
chain. -/
theorem settled_absorb {name : String} {children : List Tree}
    (kept : ∀ u ∈ children, u.isLeaf = false → ¬ s.isSpliced u.name) :
    (s.Calm name (s.absorb name children) ∧ s.SettledList (s.absorb name children))
      ↔ s.SettledList children ∧ s.endsChain name children := by
  rcases s.absorb_cases name children with ⟨calm, eq⟩ | ⟨before, last, rfl, same, isChained, eq⟩
  · rw [eq]
    simp only [calm, endsChain_of_calm calm, true_and, and_true]
  rw [eq, endsChain_concat same isChained, settledList_append, settledList_append]
  cases last with
  | leaf name' label terminal token =>
    simp only [Tree.children, SettledList, Settled, List.append_nil, forall_const, and_true]
    exact and_comm
  | node name' label choice children' =>
    obtain rfl : name' = name := same
    have notSpliced : ¬ s.isSpliced name' := kept (.node name' label choice children') (by simp) rfl
    simp only [Tree.children, SettledList, Settled, notSpliced,
      and_true]
    rcases List.eq_nil_or_concat' children' with rfl | ⟨before', last', rfl⟩
    · simp [SettledList, Calm, and_comm]
    · rw [← List.append_assoc, Calm.concat, Calm.concat]
      simp only [List.append_eq_nil_iff, List.cons_ne_self, and_false, false_implies, and_true]
      tauto

mutual

theorem settled_shakeInner (t : Tree) :
    s.SettledList (s.shakeInner t) ↔ s.everyKeptInner s.endsChain t := by
  cases t with
  | leaf => simp [shakeInner, everyKeptInner, SettledList, Settled]
  | node name label choice children =>
    have below := settled_shakeList children
    rw [shakeInner, everyKeptInner]
    split
    · rename_i spliced
      rw [settledList_map_inheritLabel, below, spliced, Bool.true_or, Bool.and_true]
    · rename_i kept
      rw [SettledList, SettledList, Settled, and_true,
        settled_absorb (not_isSpliced_of_mem_shakeList children), below,
        Bool.eq_false_iff.2 kept, Bool.false_or, Bool.and_eq_true]
      simp

theorem settled_shakeList (ts : List Tree) :
    s.SettledList (s.shakeList ts) ↔ s.everyKeptList s.endsChain ts := by
  cases ts with
  | nil => simp [shakeList, everyKeptList, SettledList]
  | cons t ts =>
    rw [shakeList, everyKeptList, settledList_append, settled_shakeInner t, settled_shakeList ts,
      Bool.and_eq_true]

end

end

/-- **Shaking a shaken tree** changes nothing unless a tree that stays takes over nothing from
a last child of its name, and so has the one before it, of the same name, as its last. -/
theorem shake_shake_iff (s : Shake) (t : Tree) :
    s.shake (s.shake t) = s.shake t ↔ s.everyKept s.endsChain t := by
  cases t with
  | leaf => simp [shake, everyKept]
  | node name label choice children =>
    rw [shake, shake_node_iff, settled_absorb (not_isSpliced_of_mem_shakeList children),
      settled_shakeList, everyKept, Bool.and_eq_true]

/-- A list that ends with an empty one: the first time the empty list is taken out, and only
the second time what is in the list before it is moved up. -/
theorem shake_shake_ne :
    ∃ (s : Shake) (t : Tree), s.shake (s.shake t) ≠ s.shake t :=
  ⟨{ chain := ["list"] },
   .node "list" none (some 0)
    [.node "list" none (some 1) [.ofToken { type := "identifier", lexeme := "x" }],
     .node "list" none (some 2) []],
   fun same => absurd (congrArg Tree.size same) (by decide)⟩

/-- Shaking without chaining leaves nothing to be taken out. -/
theorem shake_shake {s : Shake} (unchained : s.chain = []) (t : Tree) :
    s.shake (s.shake t) = s.shake t :=
  (s.shake_shake_iff t).2 <| everyKept_of_forall (fun name children => by
    rw [endsChain, unchained]
    rfl) t

end Shake

end Polyglot
