import Mathlib.Data.List.Forall2
import Polyglot.Proofs.Grammar.Groups
import Polyglot.Proofs.Grammar.Recovery

/-!
# Declarations without groups

A grammar has no groups. What stands for a group in it is a rule with a name that no declaration
has, and building such a grammar can be told in two parts that have nothing to do with each other:
groups are given names and are declared on their own (`flattened`), and then names are replaced by
numbers. This module is about the first part, where there are no numbers of rules and nothing that
is filled in later.

The names are made of the name of the declaration that a group is in and a number that is counted
within it. They are pairwise different (`nodup_flattened`), for the names of the declarations have no
sign in them that separates the two.
-/

namespace Polyglot

/-! ## References -/

/-- The names of the rules in what a phrase asks for, from those in the phrases of a group. -/
def Atom.references : Atom (List String) → List String
  | rule name => [name]
  | terminal _ => []
  | group alternatives => alternatives.flatMap List.flatten

/-- The names of the rules that a phrase asks for. -/
def Phrase.references : Phrase → List String := fold fun atom _ _ => atom.references

theorem Phrase.references_group (alternatives : List (List Phrase)) (multiplicity : Multiplicity)
    (label : Option String) :
    (group alternatives multiplicity label).references
      = alternatives.flatMap (·.flatMap references) := by
  rw [references, fold_group, Atom.references, List.flatMap_map]
  rfl

/-- The names of the rules that a declaration asks for. -/
def Declaration.references : Declaration → List String
  | rule _ alternatives => alternatives.flatMap (·.flatMap Phrase.references)
  | aliasOf .. => []

/-! ## Declarations that count -/

/-- The first declaration with each name. -/
def kept : List Declaration → List Declaration
  | [] => []
  | d :: ds => d :: (kept ds).filter (·.name != d.name)

/-- Whether two declarations have different names, or are both aliases. -/
def Agree (d d' : Declaration) : Prop := d.name = d'.name → d.isAlias ∧ d'.isAlias

/-- Whether no name is declared twice, unless as an alias each time. -/
def DeclaredOnce (ds : List Declaration) : Prop := ds.Pairwise Agree

theorem kept_subset (ds : List Declaration) : kept ds ⊆ ds := by
  induction ds with
  | nil => exact List.Subset.refl _
  | cons d ds ih =>
    exact List.cons_subset_cons _ fun _ mem => ih (List.mem_of_mem_filter mem)

theorem exists_kept {ds : List Declaration} {d : Declaration} (mem : d ∈ ds) :
    ∃ d' ∈ kept ds, d'.name = d.name := by
  induction ds with
  | nil => cases mem
  | cons first ds ih =>
    by_cases same : first.name = d.name
    · exact ⟨first, List.mem_cons_self, same⟩
    · rcases List.mem_cons.1 mem with rfl | mem
      · exact absurd rfl same
      · obtain ⟨d', mem', named⟩ := ih mem
        have other : (d'.name != first.name) = true := by
          rw [named]
          simpa using Ne.symm same
        exact ⟨d', List.mem_cons_of_mem _ (List.mem_filter.2 ⟨mem', other⟩), named⟩

theorem nodup_kept (ds : List Declaration) : ((kept ds).map Declaration.name).Nodup := by
  induction ds with
  | nil => exact List.nodup_nil
  | cons d ds ih =>
    rw [kept, List.map_cons, List.nodup_cons]
    refine ⟨fun mem => ?_, ih.sublist (List.filter_sublist.map _)⟩
    obtain ⟨d', mem, same⟩ := List.mem_map.1 mem
    exact absurd same (by simpa using (List.mem_filter.1 mem).2)

/-! ## Groups on their own -/

/-- The numbers that the next group and the next alternative of several phrases get. -/
structure Numbers where
  /-- The number for the next group. -/
  groups : Nat := 0
  /-- The number for the next alternative with a declaration of its own. -/
  branches : Nat := 0

/-- What a part of a declaration is without its groups. -/
structure Flat (α : Type) where
  /-- The part, with names for the groups. -/
  value : α
  /-- The declarations of the groups. -/
  others : List Declaration
  /-- The numbers after that. -/
  next : Numbers

/-- The name of a group. -/
def groupName (owner : String) (n : Nat) : String := s!"{owner}:{n}"

/-- The name of an alternative of several phrases. -/
def branchName (owner : String) (n : Nat) : String := s!"{owner}~{n}"

mutual

/-- A phrase without its groups. -/
def Phrase.flatten (owner : String) (n : Numbers) : Phrase → Flat Phrase
  | .rule name multiplicity label => ⟨.rule name multiplicity label, [], n⟩
  | .terminal name multiplicity label => ⟨.terminal name multiplicity label, [], n⟩
  | .group alternatives multiplicity label =>
    let flat := flattenBranches owner (alternatives.length > 1) { n with groups := n.groups + 1 }
      alternatives
    ⟨.rule (groupName owner n.groups) multiplicity label,
      .rule (groupName owner n.groups) flat.value :: flat.others, flat.next⟩

/-- The phrases of an alternative without their groups. -/
def flattenPhrases (owner : String) (n : Numbers) : List Phrase → Flat (List Phrase)
  | [] => ⟨[], [], n⟩
  | p :: ps =>
    let first := p.flatten owner n
    let rest := flattenPhrases owner first.next ps
    ⟨first.value :: rest.value, first.others ++ rest.others, rest.next⟩

/-- Alternatives without their groups. If there are `several`, those of several phrases are
declared on their own. -/
def flattenBranches (owner : String) (several : Bool) (n : Numbers) :
    List (List Phrase) → Flat (List (List Phrase))
  | [] => ⟨[], [], n⟩
  | ps :: alternatives =>
    if several && ps.length > 1 then
      let first := flattenPhrases owner { n with branches := n.branches + 1 } ps
      let rest := flattenBranches owner several first.next alternatives
      ⟨[.ofRule (branchName owner n.branches)] :: rest.value,
        .rule (branchName owner n.branches) [first.value] :: first.others ++ rest.others, rest.next⟩
    else
      let first := flattenPhrases owner n ps
      let rest := flattenBranches owner several first.next alternatives
      ⟨first.value :: rest.value, first.others ++ rest.others, rest.next⟩

end

/-- A declaration without its groups, and the declarations of the groups. -/
def Declaration.flatten : Declaration → Declaration × List Declaration
  | rule name alternatives =>
    let flat := flattenBranches name false {} alternatives
    (.rule name flat.value, flat.others)
  | aliasOf name terminal => (.aliasOf name terminal, [])

/-- Declarations without groups: first what was declared, and then the groups. -/
def flattened (ds : List Declaration) : List Declaration :=
  ds.map (·.flatten.1) ++ ds.flatMap (·.flatten.2)

theorem Declaration.name_flatten (d : Declaration) : d.flatten.1.name = d.name := by
  cases d <;> rfl

/-! ## Their names -/

/-- Names with a sign and a number behind them are the same just if all of that is. -/
theorem eq_of_marked {owner owner' : List Char} {sign sign' : Char} {n n' : Nat}
    (plain : ∀ c ∈ owner, c ≠ ':' ∧ c ≠ '~') (plain' : ∀ c ∈ owner', c ≠ ':' ∧ c ≠ '~')
    (is : sign = ':' ∨ sign = '~') (is' : sign' = ':' ∨ sign' = '~')
    (same : owner ++ sign :: (toString n).toList = owner' ++ sign' :: (toString n').toList) :
    owner = owner' ∧ sign = sign' ∧ n = n' := by
  induction owner generalizing owner' with
  | nil =>
    cases owner' with
    | nil =>
      obtain ⟨rfl, numbers⟩ := List.cons.inj same
      have values := congrArg Text.natural? numbers
      rw [Nat.toString_eq_repr, Nat.toString_eq_repr, Lexicon.natural?_repr, Lexicon.natural?_repr] at values
      exact ⟨rfl, rfl, Option.some.inj values⟩
    | cons c owner' =>
      obtain ⟨rfl, -⟩ := List.cons.inj same
      have := plain' sign List.mem_cons_self
      exact absurd is (by simp [this])
  | cons c owner ih =>
    cases owner' with
    | nil =>
      obtain ⟨rfl, -⟩ := List.cons.inj same
      have := plain c List.mem_cons_self
      exact absurd is' (by simp [this])
    | cons c' owner' =>
      obtain ⟨rfl, rest⟩ := List.cons.inj same
      obtain ⟨rfl, others⟩ := ih (fun c mem => plain c (List.mem_cons_of_mem _ mem))
        (fun c mem => plain' c (List.mem_cons_of_mem _ mem)) rest
      exact ⟨rfl, others⟩

theorem isMarked_eq_false_iff {name : String} :
    isMarked name = false ↔ ∀ c ∈ name.toList, c ≠ ':' ∧ c ≠ '~' := by
  simp [isMarked]

/-- The name of what is declared for a part of a declaration. -/
inductive Mark where
  /-- A group. -/
  | group (n : Nat)
  /-- An alternative of several phrases. -/
  | branch (n : Nat)

namespace Mark

/-- The name, given that of the declaration. -/
def name (owner : String) : Mark → String
  | group n => groupName owner n
  | branch n => branchName owner n

/-- Whether the number is neither below some numbers nor beyond others. -/
def Between (n n' : Numbers) : Mark → Prop
  | group i => n.groups ≤ i ∧ i < n'.groups
  | branch i => n.branches ≤ i ∧ i < n'.branches

theorem isMarked_name (owner : String) (mark : Mark) : isMarked (mark.name owner) := by
  cases mark with
  | group n => exact Grammar.isMarked_group owner n
  | branch n => exact Grammar.isMarked_branch owner n

theorem toList_name (owner : String) (mark : Mark) : ∃ sign n, (sign = ':' ∨ sign = '~')
    ∧ (mark.name owner).toList = owner.toList ++ sign :: (toString n).toList
    ∧ mark = if sign = ':' then group n else branch n := by
  cases mark with
  | group n =>
    refine ⟨':', n, .inl rfl, ?_, rfl⟩
    show (owner ++ ":" ++ toString n).toList = _
    rw [String.toList_append, String.toList_append, List.append_assoc]
    rfl
  | branch n =>
    refine ⟨'~', n, .inr rfl, ?_, rfl⟩
    show (owner ++ "~" ++ toString n).toList = _
    rw [String.toList_append, String.toList_append, List.append_assoc]
    rfl

/-- The name tells the declaration and the part of it. -/
theorem name_inj {owner owner' : String} (plain : isMarked owner = false)
    (plain' : isMarked owner' = false) {mark mark' : Mark}
    (same : mark.name owner = mark'.name owner') : owner = owner' ∧ mark = mark' := by
  obtain ⟨sign, n, is, eq, rfl⟩ := mark.toList_name owner
  obtain ⟨sign', n', is', eq', rfl⟩ := mark'.toList_name owner'
  obtain ⟨owners, rfl, rfl⟩ := eq_of_marked (isMarked_eq_false_iff.1 plain)
    (isMarked_eq_false_iff.1 plain') is is' (eq.symm.trans ((congrArg String.toList same).trans eq'))
  exact ⟨String.toList_inj.1 owners, rfl⟩

end Mark

/-- Whether declarations have different names, of groups with numbers from some numbers on and below
others. -/
structure Apart (owner : String) (n : Numbers) (others : List Declaration) (n' : Numbers) : Prop where
  /-- The numbers of groups do not become smaller. -/
  groups : n.groups ≤ n'.groups
  /-- Nor do those of alternatives. -/
  branches : n.branches ≤ n'.branches
  /-- The names are of groups with these numbers. -/
  between : ∀ d ∈ others, ∃ mark : Mark, d.name = mark.name owner ∧ mark.Between n n'
  /-- They are different. -/
  nodup : (others.map Declaration.name).Nodup

namespace Apart

variable {owner : String} {n n' n'' : Numbers} {others others' : List Declaration}

theorem nil : Apart owner n [] n := ⟨Nat.le_refl _, Nat.le_refl _, nofun, List.nodup_nil⟩

theorem append (plain : isMarked owner = false) (h : Apart owner n others n')
    (h' : Apart owner n' others' n'') : Apart owner n (others ++ others') n'' where
  groups := Nat.le_trans h.groups h'.groups
  branches := Nat.le_trans h.branches h'.branches
  between d mem := by
    have := h.groups
    have := h.branches
    have := h'.groups
    have := h'.branches
    rcases List.mem_append.1 mem with mem | mem
    · obtain ⟨mark, named, between⟩ := h.between d mem
      refine ⟨mark, named, ?_⟩
      cases mark <;> simp only [Mark.Between] at between ⊢ <;> omega
    · obtain ⟨mark, named, between⟩ := h'.between d mem
      refine ⟨mark, named, ?_⟩
      cases mark <;> simp only [Mark.Between] at between ⊢ <;> omega
  nodup := by
    rw [List.map_append, List.nodup_append]
    refine ⟨h.nodup, h'.nodup, fun name mem name' mem' same => ?_⟩
    obtain ⟨d, among, rfl⟩ := List.mem_map.1 mem
    obtain ⟨d', among', rfl⟩ := List.mem_map.1 mem'
    obtain ⟨mark, named, between⟩ := h.between d among
    obtain ⟨mark', named', between'⟩ := h'.between d' among'
    obtain ⟨-, rfl⟩ := Mark.name_inj plain plain (named.symm.trans (same.trans named'))
    cases mark <;> simp only [Mark.Between] at between between' <;> omega

/-- A group is declared before what is in it. -/
theorem group (plain : isMarked owner = false) (alternatives : List (List Phrase))
    (h : Apart owner { n with groups := n.groups + 1 } others n') :
    Apart owner n (.rule (groupName owner n.groups) alternatives :: others) n' := by
  have first : Apart owner n [.rule (groupName owner n.groups) alternatives]
      { n with groups := n.groups + 1 } :=
    ⟨Nat.le_succ _, Nat.le_refl _, List.forall_mem_singleton.2
      ⟨.group n.groups, rfl, Nat.le_refl _, Nat.lt_succ_self _⟩, List.nodup_singleton _⟩
  exact append plain first h

/-- An alternative is declared before what is in it. -/
theorem branch (plain : isMarked owner = false) (alternatives : List (List Phrase))
    (h : Apart owner { n with branches := n.branches + 1 } others n') :
    Apart owner n (.rule (branchName owner n.branches) alternatives :: others) n' := by
  have first : Apart owner n [.rule (branchName owner n.branches) alternatives]
      { n with branches := n.branches + 1 } :=
    ⟨Nat.le_refl _, Nat.le_succ _, List.forall_mem_singleton.2
      ⟨.branch n.branches, rfl, Nat.le_refl _, Nat.lt_succ_self _⟩, List.nodup_singleton _⟩
  exact append plain first h

end Apart

section

variable {owner : String} (plain : isMarked owner = false)

include plain

mutual

theorem Phrase.apart_flatten (p : Phrase) (n : Numbers) :
    Apart owner n (p.flatten owner n).others (p.flatten owner n).next := by
  cases p with
  | rule | terminal => exact .nil
  | group alternatives => exact .group plain _ (apart_flattenBranches _ alternatives _)

theorem apart_flattenPhrases (ps : List Phrase) (n : Numbers) :
    Apart owner n (flattenPhrases owner n ps).others (flattenPhrases owner n ps).next := by
  cases ps with
  | nil => exact .nil
  | cons p ps => exact .append plain (p.apart_flatten n) (apart_flattenPhrases ps _)

theorem apart_flattenBranches (several : Bool) (alternatives : List (List Phrase)) (n : Numbers) :
    Apart owner n (flattenBranches owner several n alternatives).others
      (flattenBranches owner several n alternatives).next := by
  cases alternatives with
  | nil => exact .nil
  | cons ps alternatives =>
    rw [flattenBranches]
    split
    · exact .append plain (.branch plain _ (apart_flattenPhrases ps _))
        (apart_flattenBranches several alternatives _)
    · exact .append plain (apart_flattenPhrases ps n) (apart_flattenBranches several alternatives _)

end

end

/-- What is declared for the groups of a declaration is named after it. -/
theorem Declaration.apart_flatten {d : Declaration} (plain : isMarked d.name = false) :
    ∃ n, Apart d.name {} d.flatten.2 n := by
  cases d with
  | rule name alternatives => exact ⟨_, apart_flattenBranches plain false alternatives {}⟩
  | aliasOf => exact ⟨_, .nil⟩

/-- What is declared for groups has a name like that. -/
theorem isMarked_of_mem_flatten {d d' : Declaration} (plain : isMarked d.name = false)
    (mem : d' ∈ d.flatten.2) : isMarked d'.name := by
  obtain ⟨n, apart⟩ := d.apart_flatten plain
  obtain ⟨mark, named, -⟩ := apart.between d' mem
  exact named ▸ mark.isMarked_name d.name

/-- **Declarations without groups have different names** if those with groups do, and these have no
sign in them that separates a number. -/
theorem nodup_flattened {ds : List Declaration} (nodup : (ds.map Declaration.name).Nodup)
    (plain : ∀ d ∈ ds, isMarked d.name = false) : ((flattened ds).map Declaration.name).Nodup := by
  have names : (ds.map (·.flatten.1)).map Declaration.name = ds.map Declaration.name := by
    rw [List.map_map]
    exact List.map_congr_left fun d _ => d.name_flatten
  rw [flattened, List.map_append, names, List.nodup_append]
  refine ⟨nodup, ?_, fun name mem name' mem' same => ?_⟩
  · clear names
    induction ds with
    | nil => exact List.nodup_nil
    | cons d ds ih =>
      obtain ⟨plain, plains⟩ := List.forall_mem_cons.1 plain
      obtain ⟨fresh, nodup⟩ := List.nodup_cons.1 nodup
      obtain ⟨n, apart⟩ := d.apart_flatten plain
      rw [List.flatMap_cons, List.map_append, List.nodup_append]
      refine ⟨apart.nodup, ih nodup plains, fun name mem name' mem' same => ?_⟩
      obtain ⟨part, inside, rfl⟩ := List.mem_map.1 mem
      obtain ⟨part', inside', rfl⟩ := List.mem_map.1 mem'
      obtain ⟨d', among, inside'⟩ := List.mem_flatMap.1 inside'
      obtain ⟨n', apart'⟩ := d'.apart_flatten (plains d' among)
      obtain ⟨mark, named, -⟩ := apart.between part inside
      obtain ⟨mark', named', -⟩ := apart'.between part' inside'
      obtain ⟨owners, -⟩ := Mark.name_inj plain (plains d' among) (named.symm.trans (same.trans named'))
      exact fresh (owners ▸ List.mem_map_of_mem among)
  · obtain ⟨d, among, rfl⟩ := List.mem_map.1 mem
    obtain ⟨part, inside, rfl⟩ := List.mem_map.1 mem'
    obtain ⟨d', among', inside⟩ := List.mem_flatMap.1 inside
    have marked := isMarked_of_mem_flatten (plain d' among') inside
    rw [← same, plain d among] at marked
    cases marked

end Polyglot
