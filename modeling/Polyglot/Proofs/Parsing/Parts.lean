import Polyglot.Proofs.Parsing.Sentences
import Polyglot.Proofs.Tree.Shaking

/-!
# The parts of sentences

Every part of the tree of a sentence is something that the grammar has (`Grammar.Has`): the
tree of a symbol that one of its rules asks for, or a tree that holds those of a repetition.
So what a part looks like can be told from the rules with its name (`Grammar.Has.of_node`,
`Grammar.Has.of_leaf`).

Shaking takes parts out and moves labels. What stays still has the name and the token of a
part of the raw tree, and below it what shaking makes of the trees below that part
(`Shake.exists_stems`).
-/

namespace Polyglot

namespace Tree

variable {p : Tree → Prop}

mutual

/-- What goes over from a tree to those right below it goes over to all its parts. -/
theorem forall_mem_parts (below : ∀ t, p t → ∀ u ∈ t.children, p u) (t : Tree) (h : p t) :
    ∀ u ∈ t.parts, p u := by
  cases t with
  | leaf =>
    rw [parts]
    exact List.forall_mem_singleton.2 h
  | node name label choice children =>
    rw [parts]
    exact List.forall_mem_cons.2 ⟨h, forall_mem_partsOfList below children (below _ h)⟩

theorem forall_mem_partsOfList (below : ∀ t, p t → ∀ u ∈ t.children, p u) (ts : List Tree)
    (h : ∀ t ∈ ts, p t) : ∀ u ∈ partsOfList ts, p u := by
  cases ts with
  | nil =>
    rw [partsOfList]
    exact List.forall_mem_nil _
  | cons t ts =>
    obtain ⟨first, others⟩ := List.forall_mem_cons.1 h
    rw [partsOfList]
    exact List.forall_mem_append.2
      ⟨forall_mem_parts below t first, forall_mem_partsOfList below ts others⟩

end

theorem mem_partsOfList {u : Tree} {ts : List Tree} : u ∈ partsOfList ts ↔ ∃ t ∈ ts, u ∈ t.parts := by
  induction ts with
  | nil => simp [partsOfList]
  | cons t ts ih => simp [partsOfList, ih]

theorem self_mem_parts (t : Tree) : t ∈ t.parts := by
  cases t <;> simp [parts]

mutual

/-- What is right below a part is a part. -/
theorem mem_parts_of_mem_children {t u v : Tree} (mem : u ∈ t.parts) (below : v ∈ u.children) :
    v ∈ t.parts := by
  cases t with
  | leaf =>
    rw [parts, List.mem_singleton] at mem
    rw [mem] at below
    cases below
  | node name label choice children =>
    rw [parts, List.mem_cons] at mem ⊢
    rcases mem with rfl | mem
    · exact .inr (mem_partsOfList.2 ⟨v, below, v.self_mem_parts⟩)
    · exact .inr (mem_partsOfList_of_mem_children mem below)

theorem mem_partsOfList_of_mem_children {ts : List Tree} {u v : Tree} (mem : u ∈ partsOfList ts)
    (below : v ∈ u.children) : v ∈ partsOfList ts := by
  cases ts with
  | nil => simp [partsOfList] at mem
  | cons t ts =>
    rw [partsOfList, List.mem_append] at mem ⊢
    exact mem.imp (mem_parts_of_mem_children · below) (mem_partsOfList_of_mem_children · below)

end

/-- The parts of a part are parts. -/
theorem parts_subset {t u : Tree} (mem : u ∈ t.parts) : u.parts ⊆ t.parts := fun v mem' =>
  u.forall_mem_parts (p := (· ∈ t.parts)) (fun _ inside _ below => mem_parts_of_mem_children inside below)
    mem v mem'

end Tree

/-! ## What a grammar has -/

/-- The trees that hold those of a repetition have a name that was made up. -/
theorem isGenerated_suffix {multiplicity : Multiplicity} (often : multiplicity ≠ .one) (name : String) :
    isGenerated (name ++ multiplicity.suffix) := by
  obtain ⟨c, mem, here⟩ : ∃ c ∈ ['?', '*', '+'], multiplicity.suffix.toList.getLast? = some c := by
    cases multiplicity with
    | one => exact absurd rfl often
    | optional => exact ⟨'?', by decide, rfl⟩
    | star => exact ⟨'*', by decide, rfl⟩
    | plus => exact ⟨'+', by decide, rfl⟩
  have last : (name ++ multiplicity.suffix).toList.getLast? = some c := by
    rw [String.toList_append, List.getLast?_append, here, Option.some_or]
  rw [isGenerated, last]
  rw [List.mem_cons, List.mem_cons, List.mem_singleton] at mem
  rcases mem with rfl | rfl | rfl <;> rfl

/-- The alternatives of a rule. Another name for a terminal has none. -/
def Rule.alternatives (r : Rule) : List (List Term) :=
  match r.body with
  | .aliasOf _ => []
  | .choice alternatives => alternatives

namespace Grammar

variable {g : Grammar}

/-- Whether a rule of a grammar asks for a term. -/
def AsksFor (g : Grammar) (term : Term) : Prop :=
  ∃ r ∈ g.rules, ∃ terms ∈ r.alternatives, term ∈ terms

/-- Whether a tree is one that there may be in a tree of a grammar. -/
inductive Has (g : Grammar) : Tree → Prop
  /-- The tree of the rule that parsing starts from. -/
  | entry {t : Tree} : g.Derives (.rule g.entry) t → Has g t
  /-- The tree of a symbol that a rule asks for. -/
  | asked {term : Term} {t : Tree} : g.AsksFor term → g.Derives term.symbol t → Has g t
  /-- A tree that holds those of a repetition. -/
  | often {term : Term} {t : Tree} : g.AsksFor term → term.multiplicity ≠ .one →
      g.DerivesTerm term t → Has g t

theorem DerivesAll.exists_of_mem {terms : List Term} {ts : List Tree} (h : g.DerivesAll terms ts)
    {t : Tree} (mem : t ∈ ts) : ∃ term ∈ terms, g.DerivesTerm term t := by
  induction ts generalizing terms with
  | nil => cases mem
  | cons u ts ih =>
    cases h with
    | cons first others =>
      rcases List.mem_cons.1 mem with rfl | mem
      · exact ⟨_, List.mem_cons_self, first⟩
      · obtain ⟨term, mem', derived⟩ := ih others mem
        exact ⟨term, List.mem_cons_of_mem _ mem', derived⟩

namespace Has

theorem of_term {term : Term} {t : Tree} (asked : g.AsksFor term) (h : g.DerivesTerm term t) :
    g.Has t := by
  cases h with
  | once one derived label => exact .asked asked derived
  | often many admits derived unlabeled => exact .often asked many (.often many admits derived unlabeled)

/-- A grammar has what is below the tree of a symbol. -/
theorem below_of_derives {s : Symbol} {t : Tree} (h : g.Derives s t) : ∀ u ∈ t.children, g.Has u := by
  intro u mem
  cases h with
  | terminal | another => cases mem
  | choice found body among derived =>
    obtain ⟨term, mem', derived⟩ := derived.exists_of_mem mem
    have inside := List.mem_of_getElem? among
    refine of_term ⟨_, Array.mem_of_getElem? found, _, ?_, mem'⟩ derived
    rwa [Rule.alternatives, body]

/-- A grammar has what is below a tree that it has. -/
theorem below {t : Tree} (h : g.Has t) : ∀ u ∈ t.children, g.Has u := by
  cases h with
  | entry derived => exact below_of_derives derived
  | asked _ derived => exact below_of_derives derived
  | often asked many derived =>
    intro u mem
    obtain ⟨items, rfl, -, derived, -⟩ := derived.of_often many
    exact .asked asked (derived u mem)

/-- A leaf is a token of a type that a rule asks for, or one by another name. -/
theorem of_leaf {name : String} {label terminal : Option String} {token : Token}
    (h : g.Has (.leaf name label terminal token)) :
    (token.type = name ∧ ∃ term, g.AsksFor term ∧ term.symbol = .terminal name)
      ∨ ∃ r ∈ g.rules, r.name = name ∧ r.body = .aliasOf token.type := by
  have ofSymbol {s : Symbol} (derived : g.Derives s (.leaf name label terminal token)) :
      (token.type = name ∧ s = .terminal name)
        ∨ ∃ r ∈ g.rules, r.name = name ∧ r.body = .aliasOf token.type := by
    cases derived with
    | terminal type => exact .inl ⟨type, rfl⟩
    | another found body type => exact .inr ⟨_, Array.mem_of_getElem? found, rfl, type ▸ body⟩
  cases h with
  | entry derived =>
    rcases ofSymbol derived with ⟨-, eq⟩ | another
    · cases eq
    · exact .inr another
  | asked asked derived =>
    rcases ofSymbol derived with ⟨type, eq⟩ | another
    · exact .inl ⟨type, _, asked, eq⟩
    · exact .inr another
  | often asked many derived =>
    obtain ⟨items, eq, -⟩ := derived.of_often many
    cases eq

/-- An inner tree stands for an alternative of a rule with its name, or has a name that was made
up. -/
theorem of_node {name : String} {label : Option String} {choice : Option Nat} {children : List Tree}
    (h : g.Has (.node name label choice children)) :
    isGenerated name ∨ ∃ r ∈ g.rules, r.name = name ∧ ∃ terms ∈ r.alternatives,
      g.DerivesAll terms children := by
  have ofSymbol {s : Symbol} (derived : g.Derives s (.node name label choice children)) :
      ∃ r ∈ g.rules, r.name = name ∧ ∃ terms ∈ r.alternatives, g.DerivesAll terms children := by
    cases derived with
    | choice found body among derived =>
      refine ⟨_, Array.mem_of_getElem? found, rfl, _, ?_, derived⟩
      rw [Rule.alternatives, body]
      exact List.mem_of_getElem? among
  cases h with
  | entry derived => exact .inr (ofSymbol derived)
  | asked _ derived => exact .inr (ofSymbol derived)
  | often asked many derived =>
    obtain ⟨items, eq, -⟩ := derived.of_often many
    obtain ⟨rfl, -⟩ := Tree.node.inj eq
    exact .inl (isGenerated_suffix many _)

end Has

/-- **A grammar has all parts** of the trees that it has for sentences. -/
theorem has_of_parseTokens {tokens : List Token} {t : Tree} (parsed : g.parseTokens tokens = .ok t) :
    ∀ u ∈ t.parts, g.Has u :=
  t.forall_mem_parts (fun _ => Has.below) (.entry (parseTokens_sound parsed).1)

end Grammar

/-! ## What is left of them -/

namespace Shake

variable {s : Shake}

/-- Whether a tree is what shaking leaves of another one, whatever their labels are. -/
structure Stems (s : Shake) (u v : Tree) : Prop where
  /-- They have the same name. -/
  name : u.name = v.name
  /-- They have the same token, if they are leaves. -/
  token : u.token? = v.token?
  /-- Below one is what is left of what is below the other one. -/
  children : u.children = s.shakeList v.children

theorem parts_withLabel (label : Option String) (t : Tree) :
    ∀ u ∈ (t.withLabel label).parts, ∃ v ∈ t.parts, u.name = v.name ∧ u.token? = v.token?
      ∧ u.children = v.children := by
  cases t with
  | leaf name label' terminal token =>
    simp only [Tree.withLabel, Tree.parts]
    exact List.forall_mem_singleton.2 ⟨_, List.mem_singleton_self _, rfl, rfl, rfl⟩
  | node name label' choice children =>
    simp only [Tree.withLabel, Tree.parts]
    refine List.forall_mem_cons.2 ⟨⟨_, List.mem_cons_self, rfl, rfl, rfl⟩, fun u mem => ?_⟩
    exact ⟨u, List.mem_cons_of_mem _ mem, rfl, rfl, rfl⟩

/-- A label that is taken over makes no difference. -/
theorem parts_inheritLabel (label : Option String) (t : Tree) :
    ∀ u ∈ (inheritLabel label t).parts, ∃ v ∈ t.parts, u.name = v.name ∧ u.token? = v.token?
      ∧ u.children = v.children := by
  rcases inheritLabel_eq label t with eq | eq
  · rw [eq]
    exact fun u mem => ⟨u, mem, rfl, rfl, rfl⟩
  · rw [eq]
    exact parts_withLabel label t

theorem absorb_of_unchained (unchained : s.chain = []) (name : String) (children : List Tree) :
    s.absorb name children = children := by
  rw [absorb, unchained]
  rfl

mutual

theorem stems_shakeInner (unchained : s.chain = []) (t : Tree) :
    ∀ u ∈ Tree.partsOfList (s.shakeInner t), ∃ v ∈ t.parts, s.Stems u v := by
  cases t with
  | leaf name label terminal token =>
    rw [shakeInner, Tree.partsOfList, Tree.partsOfList, List.append_nil, Tree.parts]
    refine List.forall_mem_singleton.2 ⟨_, List.mem_singleton_self _, rfl, rfl, ?_⟩
    exact (shakeList.eq_1 s).symm
  | node name label choice children =>
    have below := stems_shakeList unchained children
    rw [shakeInner, Tree.parts]
    split
    · intro u mem
      obtain ⟨t, mem, mem'⟩ := Tree.mem_partsOfList.1 mem
      obtain ⟨c, among, rfl⟩ := List.mem_map.1 mem
      obtain ⟨v, mem'', name, token, children⟩ := parts_inheritLabel label c u mem'
      obtain ⟨w, inside, stems⟩ := below v (Tree.mem_partsOfList.2 ⟨c, among, mem''⟩)
      exact ⟨w, List.mem_cons_of_mem _ inside, name.trans stems.name, token.trans stems.token,
        children.trans stems.children⟩
    · rw [Tree.partsOfList, Tree.partsOfList, List.append_nil, Tree.parts,
        absorb_of_unchained unchained]
      refine List.forall_mem_cons.2 ⟨⟨_, List.mem_cons_self, rfl, rfl, rfl⟩, fun u mem => ?_⟩
      obtain ⟨v, inside, stems⟩ := below u mem
      exact ⟨v, List.mem_cons_of_mem _ inside, stems⟩

theorem stems_shakeList (unchained : s.chain = []) (ts : List Tree) :
    ∀ u ∈ Tree.partsOfList (s.shakeList ts), ∃ v ∈ Tree.partsOfList ts, s.Stems u v := by
  cases ts with
  | nil =>
    rw [shakeList, Tree.partsOfList]
    exact List.forall_mem_nil _
  | cons t ts =>
    intro u mem
    obtain ⟨w, mem, mem'⟩ := Tree.mem_partsOfList.1 mem
    rw [shakeList, List.mem_append] at mem
    rw [Tree.partsOfList]
    rcases mem with mem | mem
    · obtain ⟨v, inside, stems⟩ :=
        stems_shakeInner unchained t u (Tree.mem_partsOfList.2 ⟨w, mem, mem'⟩)
      exact ⟨v, List.mem_append_left _ inside, stems⟩
    · obtain ⟨v, inside, stems⟩ :=
        stems_shakeList unchained ts u (Tree.mem_partsOfList.2 ⟨w, mem, mem'⟩)
      exact ⟨v, List.mem_append_right _ inside, stems⟩

end

/-- **A part of a shaken tree** is what shaking leaves of a part of the tree, if nothing is
chained. -/
theorem exists_stems (unchained : s.chain = []) (t : Tree) :
    ∀ u ∈ (s.shake t).parts, ∃ v ∈ t.parts, s.Stems u v := by
  cases t with
  | leaf name label terminal token =>
    rw [shake, Tree.parts]
    refine List.forall_mem_singleton.2 ⟨_, List.mem_singleton_self _, rfl, rfl, ?_⟩
    exact (shakeList.eq_1 s).symm
  | node name label choice children =>
    rw [shake, Tree.parts, Tree.parts, absorb_of_unchained unchained]
    refine List.forall_mem_cons.2 ⟨⟨_, List.mem_cons_self, rfl, rfl, rfl⟩, fun u mem => ?_⟩
    obtain ⟨v, inside, stems⟩ := stems_shakeList unchained children u mem
    exact ⟨v, List.mem_cons_of_mem _ inside, stems⟩

end Shake

end Polyglot
