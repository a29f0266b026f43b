import Polyglot.Proofs.B.Statements

/-!
# What is read from a tree

The names that are assigned in a function are collected from its tree, not from its
statement. The two agree: whatever the statement of a tree assigns is among the names
that were found in the tree (`Statement.targets_ofTree`), so it has a slot
(`Program.closed_ofTree`).
-/

namespace Polyglot.B

theorem assignedInList_eq (ts : List Tree) : assignedInList ts = ts.flatMap assignedIn := by
  induction ts with
  | nil => rfl
  | cons t ts ih => rw [assignedInList, ih, List.flatMap_cons]

namespace Statement

variable {t : Tree} {parts : List (Tree × Statement)} {names : List String}

/-- The part with a label is one of the parts. -/
theorem mem_of_labeled? {label : String} {b : Statement} (found : labeled? parts label = some b) :
    ∃ u, (u, b) ∈ parts := by
  obtain ⟨⟨u, b'⟩, there, rfl⟩ := Option.map_eq_some_iff.1 found
  exact ⟨u, List.mem_of_find?_eq_some there⟩

theorem targets_conditional {label : String} {make : Expression → Statement → Statement}
    (makes : ∀ e u b, (u, b) ∈ parts → ∀ name ∈ (make e b).targets, name ∈ names) :
    ∀ name ∈ (conditional t label parts make).targets, name ∈ names := by
  unfold conditional
  split
  · nofun
  · split
    · rename_i found
      obtain ⟨u, mem⟩ := mem_of_labeled? found
      exact makes _ u _ mem
    · nofun

theorem targetsAll_map (parts : List (Tree × Statement)) :
    targetsAll (parts.map (·.2)) = parts.flatMap fun p => p.2.targets := by
  induction parts with
  | nil => rfl
  | cons p parts ih => rw [List.map_cons, targetsAll, ih, List.flatMap_cons]

/-- The statement of a tree assigns what its parts assign, or what it is the assignment
of. -/
theorem targets_ofParts (inside : ∀ u b, (u, b) ∈ parts → ∀ name ∈ b.targets, name ∈ names)
    (alone : t.name = "assignment" → ∀ name ∈ (assignment t).targets, name ∈ names) :
    ∀ name ∈ (ofParts t parts).targets, name ∈ names := by
  unfold ofParts
  split
  · intro name mem
    rw [targets, targetsAll_map, List.mem_flatMap] at mem
    obtain ⟨⟨u, b⟩, among, mem⟩ := mem
    exact inside u b (List.mem_of_mem_filter among) name mem
  · exact targets_conditional fun e u b mem => inside u b mem
  · refine targets_conditional fun e u b mem name => ?_
    split
    · rename_i found
      obtain ⟨u', mem'⟩ := mem_of_labeled? found
      intro among
      rcases List.mem_append.1 among with among | among
      · exact inside u b mem name among
      · exact inside u' _ mem' name among
    · exact inside u b mem name
  · nofun
  · exact alone ‹_›
  · unfold storing
    split
    · nofun
    · dsimp only
      split <;> nofun
  · split <;> nofun
  · nofun
  · nofun

mutual

/-- **What the statement of a tree assigns** is assigned in the tree. -/
theorem targets_ofTree (t : Tree) : ∀ name ∈ (ofTree t).targets, name ∈ assignedIn t := by
  cases t with
  | leaf name label terminal token =>
    refine targets_ofParts nofun fun _ => ?_
    nofun
  | node name label choice children =>
    unfold ofTree assignedIn
    by_cases same : name = "assignment"
    · subst same
      rw [beq_self_eq_true, if_pos rfl]
      show ∀ other ∈ (assignment _).targets, _
      unfold assignment
      split
      · nofun
      · nofun
      · rename_i target value found _
        rw [found]
        exact fun other mem => mem
    · rw [beq_eq_false_iff_ne.2 same, if_neg (by decide)]
      exact targets_ofParts (targets_partsOf children) fun eq => absurd eq same

theorem targets_partsOf (ts : List Tree) :
    ∀ u b, (u, b) ∈ partsOf ts → ∀ name ∈ b.targets, name ∈ assignedInList ts := by
  intro u b mem name among
  cases ts with
  | nil => cases mem
  | cons t ts =>
    rcases List.mem_cons.1 mem with eq | mem
    · obtain ⟨rfl, rfl⟩ := Prod.mk.inj eq
      exact List.mem_append_left _ (targets_ofTree u name among)
    · exact List.mem_append_right _ (targets_partsOf ts u b mem name among)

end

end Statement

/-- What the body of a function assigns was found in the tree of the function. -/
theorem Function.assigned_of_targets {t : Tree} {body : Statement}
    (found : (Function.ofTree t).body = some body) :
    ∀ name ∈ body.targets, name ∈ (Function.ofTree t).assigned := by
  intro name mem
  obtain ⟨u, there, rfl⟩ := Option.map_eq_some_iff.1 found
  show name ∈ ((t.labeled? "body").map assignedIn).getD []
  rw [there]
  exact Statement.targets_ofTree u name mem

/-- Every name that is assigned in a function that was read from a tree has a slot. -/
theorem Function.targets_ofTree {t : Tree} {body : Statement}
    (found : (Function.ofTree t).body = some body) :
    ∀ name ∈ body.targets, name ∈ (Function.ofTree t).names := by
  intro name mem
  rw [Function.names, List.mem_eraseDups]
  exact List.mem_append_right _ (assigned_of_targets found name mem)

end Polyglot.B
