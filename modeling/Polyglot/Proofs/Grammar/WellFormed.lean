import Polyglot.Proofs.Grammar.Flattening

/-!
# Grammars are well formed

Building succeeds just if a few things are fine that can be seen in the declarations, and then there
is one rule for each of the declarations without groups, in the same order, that says the same with
numbers for names (`Grammar.build_eq_ok_iff`).

Numbers are given to rules before they have a body, and rules for groups are added while those of
declarations are still being lowered. So what a rule says is told by the names of all rules that there
are in the end. More names do not change it (`Rule.Tells.mono`), and a body that is filled in changes
no name (`names_modify`).
-/

namespace Polyglot

theorem exists_mem_of_forall₂ {α β : Type} {R : α → β → Prop} {as : List α} {bs : List β}
    (h : List.Forall₂ R as bs) {a : α} (mem : a ∈ as) : ∃ b ∈ bs, R a b := by
  induction h with
  | nil => cases mem
  | cons first _ ih =>
    rcases List.mem_cons.1 mem with rfl | mem
    · exact ⟨_, List.mem_cons_self, first⟩
    · obtain ⟨b, mem', same⟩ := ih mem
      exact ⟨b, List.mem_cons_of_mem _ mem', same⟩

/-! ## What rules say -/

/-- Whether a term says the same as a phrase without groups, if these are the names of the rules. -/
inductive Term.Tells (names : List String) : Term → Phrase → Prop
  /-- A rule has the number of its name. -/
  | rule {id : Nat} {name : String} {multiplicity : Multiplicity} {label : Option String} :
      names[id]? = some name →
      Tells names { symbol := .rule id, multiplicity, label } (.rule name multiplicity label)
  /-- A terminal has no number. -/
  | terminal {name : String} {multiplicity : Multiplicity} {label : Option String} :
      Tells names { symbol := .terminal name, multiplicity, label } (.terminal name multiplicity label)

/-- Whether alternatives say the same as those of phrases. -/
abbrev Term.TellsAll (names : List String) : List (List Term) → List (List Phrase) → Prop :=
  List.Forall₂ (List.Forall₂ (Tells names))

/-- Whether a rule says the same as a declaration without groups. -/
inductive Rule.Tells (names : List String) : Rule → Declaration → Prop
  /-- A rule with alternatives. -/
  | choice {name : String} {lowered : List (List Term)} {alternatives : List (List Phrase)} :
      Term.TellsAll names lowered alternatives →
      Tells names ⟨name, .choice lowered⟩ (.rule name alternatives)
  /-- Another name for a terminal. -/
  | aliasOf {name type : String} : Tells names ⟨name, .aliasOf type⟩ (.aliasOf name type)

section

variable {names names' : List String}

theorem Term.Tells.mono (more : names <+: names') {t : Term} {p : Phrase} (h : t.Tells names p) :
    t.Tells names' p := by
  cases h with
  | rule found =>
    obtain ⟨others, rfl⟩ := more
    refine .rule ?_
    rw [List.getElem?_append_left (List.getElem?_eq_some_iff.1 found).1, found]
  | terminal => exact .terminal

theorem Term.TellsAll.mono (more : names <+: names') {lowered : List (List Term)}
    {alternatives : List (List Phrase)} (h : TellsAll names lowered alternatives) :
    TellsAll names' lowered alternatives :=
  h.imp fun _ _ same => same.imp fun _ _ => Tells.mono more

/-- What rules say stays the same if there are more. -/
theorem Rule.Tells.mono (more : names <+: names') {r : Rule} {d : Declaration} (h : r.Tells names d) :
    r.Tells names' d := by
  cases h with
  | choice h => exact .choice (h.mono more)
  | aliasOf => exact .aliasOf

theorem Rule.Tells.name {r : Rule} {d : Declaration} (h : r.Tells names d) : r.name = d.name := by
  cases h <;> rfl

/-- Rules that say the same as declarations have their names. -/
theorem map_name_of_tells {rs : List Rule} {ds : List Declaration}
    (h : List.Forall₂ (Rule.Tells names) rs ds) : rs.map Rule.name = ds.map Declaration.name := by
  induction h with
  | nil => rfl
  | cons first _ ih => rw [List.map_cons, List.map_cons, first.name, ih]

end

namespace Grammar

/-! ## Rules so far -/

/-- The names of rules. -/
def names (rules : Array Rule) : List String := rules.toList.map Rule.name

/-- A rule that is given another body stays where it is. -/
theorem toList_modify {rules : Array Rule} {before after : List Rule} {r : Rule}
    (are : rules.toList = before ++ r :: after) (f : Rule → Rule) :
    (rules.modify before.length f).toList = before ++ f r :: after := by
  refine List.ext_getElem? fun i => ?_
  rw [Array.getElem?_toList, Array.getElem?_modify, ← Array.getElem?_toList, are]
  rcases Nat.lt_trichotomy i before.length with less | rfl | more
  · rw [if_neg (Nat.ne_of_gt less), List.getElem?_append_left less, List.getElem?_append_left less]
  · rw [if_pos rfl, List.getElem?_append_right (Nat.le_refl _),
      List.getElem?_append_right (Nat.le_refl _), Nat.sub_self]
    rfl
  · rw [if_neg (Nat.ne_of_lt more), List.getElem?_append_right (Nat.le_of_lt more),
      List.getElem?_append_right (Nat.le_of_lt more)]
    obtain ⟨k, eq⟩ := Nat.exists_eq_add_of_lt more
    rw [show i - before.length = k + 1 by omega]
    rfl

/-- A body changes no name. -/
theorem names_modify (rules : Array Rule) (id : Nat) (body : RuleBody) :
    names (rules.modify id fun r => { r with body }) = names rules := by
  refine List.ext_getElem? fun i => ?_
  rw [names, names, List.getElem?_map, List.getElem?_map, Array.getElem?_toList, Array.getElem?_toList,
    Array.getElem?_modify]
  split
  · cases rules[i]? <;> rfl
  · rfl

/-- Whether rules were added that say the same as declarations. -/
def Adds (rules rules' : Array Rule) (others : List Declaration) : Prop :=
  ∃ more, rules'.toList = rules.toList ++ more ∧ List.Forall₂ (Rule.Tells (names rules')) more others

namespace Adds

variable {rules rules' rules'' : Array Rule} {others others' : List Declaration}

theorem refl (rules : Array Rule) : Adds rules rules [] := ⟨[], (List.append_nil _).symm, .nil⟩

theorem names_prefix (h : Adds rules rules' others) : names rules <+: names rules' := by
  obtain ⟨more, are, -⟩ := h
  exact ⟨more.map Rule.name, by rw [names, names, are, List.map_append]⟩

theorem trans (h : Adds rules rules' others) (h' : Adds rules' rules'' others') :
    Adds rules rules'' (others ++ others') := by
  have longer := h'.names_prefix
  obtain ⟨more, are, tell⟩ := h
  obtain ⟨more', are', tell'⟩ := h'
  refine ⟨more ++ more', by rw [are', are, List.append_assoc], ?_⟩
  exact List.rel_append (tell.imp fun _ _ same => same.mono longer) tell'

/-- A rule that was there before the others is given its body after them. -/
theorem declare {name : String} (h : Adds (rules.push ⟨name, .choice []⟩) rules' others)
    {lowered : List (List Term)} {alternatives : List (List Phrase)}
    (same : Term.TellsAll (names rules') lowered alternatives) :
    Adds rules (rules'.modify rules.size fun r => { r with body := .choice lowered })
      (.rule name alternatives :: others) := by
  obtain ⟨more, are, tell⟩ := h
  rw [Array.toList_push, List.append_assoc, List.singleton_append] at are
  refine ⟨⟨name, .choice lowered⟩ :: more, ?_, ?_⟩
  · rw [← Array.length_toList, toList_modify are]
  · rw [names_modify]
    exact .cons (.choice same) tell

/-- That rule has the number that there were rules. -/
theorem getElem?_names {name : String} (h : Adds (rules.push ⟨name, .choice []⟩) rules' others) :
    (names rules')[rules.size]? = some name := by
  obtain ⟨more, are, -⟩ := h
  rw [Array.toList_push, List.append_assoc, List.singleton_append] at are
  rw [names, are, List.getElem?_map, ← Array.length_toList, List.getElem?_append_right (Nat.le_refl _),
    Nat.sub_self]
  rfl

end Adds

/-! ## When names are known -/

section

variable {ds : List Declaration} {v : Vocabulary}

/-- Whether the rules and the terminals that are asked for are there. -/
def Knows (ds : List Declaration) (v : Vocabulary) (references terminals : List String) : Prop :=
  (∀ name ∈ references, ∃ d ∈ ds, d.name = name) ∧ ∀ type ∈ terminals, v.knows type

theorem knows_nil : Knows ds v [] [] := ⟨nofun, nofun⟩

theorem knows_append {references references' terminals terminals' : List String} :
    Knows ds v (references ++ references') (terminals ++ terminals')
      ↔ Knows ds v references terminals ∧ Knows ds v references' terminals' := by
  unfold Knows
  rw [List.forall_mem_append, List.forall_mem_append]
  tauto

/-- The last rule with a name is there if there is one. -/
theorem lastId?_eq_none_iff {rs : List Rule} {name : String} :
    lastId? rs name = none ↔ name ∉ rs.map Rule.name := by
  rw [lastId?, Option.map_eq_none_iff, List.find?_eq_none]
  simp only [List.mem_reverse, List.mem_zipIdx_iff_getElem?, beq_iff_eq, Prod.forall, List.mem_map, not_exists,
    not_and]
  exact ⟨fun none r mem => by
    obtain ⟨id, there⟩ := List.mem_iff_getElem?.1 mem
    exact none r id there, fun none r id there => none r (List.mem_of_getElem? there)⟩

/-- It has the name. -/
theorem getElem?_of_lastId? {rs : List Rule} {name : String} {id : Nat}
    (looked : lastId? rs name = some id) : (rs.map Rule.name)[id]? = some name := by
  obtain ⟨⟨r, i⟩, first, rfl⟩ := Option.map_eq_some_iff.1 looked
  have found := List.mem_zipIdx_iff_getElem?.1 (List.mem_reverse.1 (List.mem_of_find?_eq_some first))
  have same : (r.name == name) = true := List.find?_some (p := fun x : Rule × Nat => x.1.name == name) first
  rw [List.getElem?_map, found, Option.map_some, beq_iff_eq.1 same]

/-- **Looking up a name** finds the rule with it, if names are different. -/
theorem lastId?_eq_some_iff {rs : List Rule} (nodup : (rs.map Rule.name).Nodup) {name : String} {id : Nat} :
    lastId? rs name = some id ↔ (rs.map Rule.name)[id]? = some name := by
  refine ⟨getElem?_of_lastId?, fun there => ?_⟩
  cases looked : lastId? rs name with
  | none => exact absurd (List.mem_of_getElem? there) (lastId?_eq_none_iff.1 looked)
  | some id' =>
    have same := (getElem?_of_lastId? looked).trans there.symm
    have inside := (List.getElem?_eq_some_iff.1 (getElem?_of_lastId? looked)).1
    rw [(List.getElem?_inj inside nodup).1 same]

/-! ## Lowering -/

/-- The numbers that are next. -/
def Lowering.numbers (s : Lowering) : Numbers := ⟨s.nextGroup, s.nextBranch⟩

/-- Whether a step of lowering succeeds just if something is fine, and then with such a result. -/
structure Succeeds {α : Type} (m : Lower α) (s : Lowering) (fine : Prop) (Result : α → Lowering → Prop) :
    Prop where
  /-- It succeeds. -/
  exists_ok : fine → ∃ a s', m s = .ok (a, s')
  /-- Nothing else does, and the result is such. -/
  of_ok : ∀ a s', m s = .ok (a, s') → fine ∧ Result a s'

namespace Succeeds

variable {α β : Type} {m : Lower α} {s : Lowering} {fine fine' : Prop} {Result Result' : α → Lowering → Prop}

theorem pure {a : α} (result : Result a s) : Succeeds (pure a) s True Result where
  exists_ok _ := ⟨a, s, rfl⟩
  of_ok a' s' done := by
    obtain ⟨rfl, rfl⟩ := Lower.pure_eq_ok.1 done
    exact ⟨trivial, result⟩

theorem bind {k : α → Lower β} {Last : β → Lowering → Prop} (first : Succeeds m s fine Result)
    (next : ∀ a s', m s = .ok (a, s') → Result a s' → Succeeds (k a) s' fine' Last) :
    Succeeds (m >>= k) s (fine ∧ fine') Last where
  exists_ok both := by
    obtain ⟨a, s', done⟩ := first.exists_ok both.1
    obtain ⟨b, s'', done'⟩ := (next a s' done (first.of_ok a s' done).2).exists_ok both.2
    exact ⟨b, s'', Lower.bind_eq_ok.2 ⟨a, s', done, done'⟩⟩
  of_ok b s'' done := by
    obtain ⟨a, s', done, done'⟩ := Lower.bind_eq_ok.1 done
    obtain ⟨is, result⟩ := first.of_ok a s' done
    obtain ⟨is', result'⟩ := (next a s' done result).of_ok b s'' done'
    exact ⟨⟨is, is'⟩, result'⟩

theorem imp (h : Succeeds m s fine Result) (same : fine ↔ fine')
    (more : ∀ a s', Result a s' → Result' a s') : Succeeds m s fine' Result' where
  exists_ok is := h.exists_ok (same.2 is)
  of_ok a s' done := (h.of_ok a s' done).imp same.1 (more a s')

/-- What cannot fail is not asked about. -/
theorem andThen {k : α → Lower β} {Last : β → Lowering → Prop} (first : Succeeds m s fine Result)
    (next : ∀ a s', m s = .ok (a, s') → Result a s' → Succeeds (k a) s' True Last) :
    Succeeds (m >>= k) s fine Last :=
  (first.bind next).imp (iff_of_eq (and_true fine)) fun _ _ => id

theorem congr {m' : Lower α} {s' : Lowering} (same : m s = m' s') (h : Succeeds m' s' fine Result) :
    Succeeds m s fine Result := by
  obtain ⟨exists_ok, of_ok⟩ := h
  rw [← same] at exists_ok of_ok
  exact ⟨exists_ok, of_ok⟩

end Succeeds

/-- What a part of a declaration is lowered to, if it is such without its groups. -/
structure Lowered {α β : Type} (Tells : List String → α → β → Prop) (s : Lowering) (flat : Flat β) (a : α)
    (s' : Lowering) : Prop where
  /-- It says the same. -/
  value : Tells (names s'.rules) a flat.value
  /-- There are rules for the groups. -/
  others : Adds s.rules s'.rules flat.others
  /-- They have these numbers. -/
  next : s'.numbers = flat.next

theorem checkTerminal_succeeds (name : String) (s : Lowering) :
    Succeeds (checkTerminal v name) s (v.knows name) fun _ s' => s' = s where
  exists_ok known := ⟨(), s, by rw [checkTerminal, if_pos known]; rfl⟩
  of_ok _ s' checked := by
    refine ⟨?_, (checkTerminal_eq_ok checked).symm⟩
    unfold checkTerminal at checked
    split at checked
    · assumption
    · cases checked

/-- A name that is not like that of a group is there if it is declared. -/
theorem Named.mem_names_iff {rules : Array Rule} (h : Named ds rules) {name : String}
    (plain : isMarked name = false) : name ∈ names rules ↔ ∃ d ∈ ds, d.name = name := by
  constructor
  · intro mem
    cases looked : lastId? rules.toList name with
    | none => exact absurd mem (lastId?_eq_none_iff.1 looked)
    | some id =>
      obtain ⟨d, found, same⟩ := h.exists_of_lastId? plain looked
      exact ⟨d, List.mem_of_getElem? found, same⟩
  · rintro ⟨d, mem, rfl⟩
    obtain ⟨id, there⟩ := List.mem_iff_getElem?.1 mem
    obtain ⟨r, found, same⟩ := h.declared id d there
    exact List.mem_map.2 ⟨r, Array.mem_toList_iff.2 (Array.mem_of_getElem? found), same⟩

section

variable (v) (owner : String)

mutual

/-- **A phrase** is lowered if the names in it are known. -/
theorem lowerPhrase_succeeds (p : Phrase) (plain : p.isPlain) {s : Lowering} (named : Named ds s.rules)
    {n : Numbers} (numbers : s.numbers = n) :
    Succeeds (lowerPhrase v owner p) s (Knows ds v p.references p.terminals)
      (Lowered Term.Tells s (p.flatten owner n)) := by
  subst numbers
  cases p with
  | rule name multiplicity label =>
    rw [Phrase.isPlain, Bool.not_eq_true'] at plain
    have declared : name ∈ names s.rules ↔ Knows ds v [name] [] := by
      rw [named.mem_names_iff plain]
      simp [Knows]
    refine Succeeds.imp ⟨fun mem => ?_, fun t s' done => ?_⟩ declared fun _ _ => id
    · cases looked : lastId? s.rules.toList name with
      | none => exact absurd mem (lastId?_eq_none_iff.1 looked)
      | some id =>
        refine ⟨{ symbol := .rule id, multiplicity, label }, s, ?_⟩
        rw [lowerPhrase, get_bind, looked]
        rfl
    · rw [lowerPhrase, get_bind] at done
      cases looked : lastId? s.rules.toList name with
      | none =>
        rw [looked] at done
        cases done
      | some id =>
        rw [looked] at done
        obtain ⟨rfl, rfl⟩ := Lower.pure_eq_ok.1 done
        have there := getElem?_of_lastId? looked
        exact ⟨List.mem_of_getElem? there, .rule there, .refl _, rfl⟩
  | terminal name multiplicity label =>
    rw [lowerPhrase]
    have known : v.knows name ↔ Knows ds v [] [name] := by simp [Knows]
    refine Succeeds.imp ((checkTerminal_succeeds name s).andThen fun _ s' _ same => ?_) known fun _ _ => id
    subst same
    exact .pure ⟨.terminal, .refl _, rfl⟩
  | group alternatives multiplicity label =>
    rw [Phrase.isPlain] at plain
    rw [lowerPhrase, Phrase.references_group, Phrase.terminals_group]
    refine .congr (takeGroup_bind _) (.congr (pushRule_bind _ _) ?_)
    -- the rule of the group gets its place before its alternatives are lowered
    have push : Grows s.rules (s.rules.push ⟨groupName owner s.nextGroup, .choice []⟩) :=
      .push (isMarked_group owner s.nextGroup)
    refine (lowerBranches_succeeds _ alternatives plain (named.grows push) rfl).andThen fun lowered s' _ h => ?_
    refine .congr (setBody_bind _ _ _) (.pure ⟨.rule ?_, h.others.declare h.value, h.next⟩)
    rw [names_modify]
    exact h.others.getElem?_names

theorem lowerPhrases_succeeds (ps : List Phrase) (plain : Phrase.arePlain ps) {s : Lowering}
    (named : Named ds s.rules) {n : Numbers} (numbers : s.numbers = n) :
    Succeeds (lowerPhrases v owner ps) s (Knows ds v (ps.flatMap Phrase.references) (ps.flatMap Phrase.terminals))
      (Lowered (fun names => List.Forall₂ (Term.Tells names)) s (flattenPhrases owner n ps)) := by
  cases ps with
  | nil =>
    rw [lowerPhrases]
    exact (Succeeds.pure ⟨.nil, .refl _, numbers⟩).imp (by simp [knows_nil]) fun _ _ => id
  | cons p ps =>
    obtain ⟨plain, plains⟩ := Bool.and_eq_true_iff.1 plain
    rw [lowerPhrases, List.flatMap_cons, List.flatMap_cons]
    refine Succeeds.imp ((lowerPhrase_succeeds p plain named numbers).bind fun t s' done first => ?_)
      knows_append.symm fun _ _ => id
    have named' := named.grows (lowers_of_lowerPhrase v owner p plain named done).1
    refine (lowerPhrases_succeeds ps plains named' first.next).andThen fun ts s'' _ rest => ?_
    exact .pure ⟨.cons (first.value.mono rest.others.names_prefix) rest.value,
      first.others.trans rest.others, rest.next⟩

theorem lowerBranches_succeeds (several : Bool) (alternatives : List (List Phrase))
    (plain : Phrase.arePlainBranches alternatives) {s : Lowering} (named : Named ds s.rules)
    {n : Numbers} (numbers : s.numbers = n) :
    Succeeds (lowerBranches v owner several alternatives) s
      (Knows ds v (alternatives.flatMap (·.flatMap Phrase.references))
        (alternatives.flatMap (·.flatMap Phrase.terminals)))
      (Lowered Term.TellsAll s (flattenBranches owner several n alternatives)) := by
  cases alternatives with
  | nil =>
    rw [lowerBranches]
    exact (Succeeds.pure ⟨.nil, .refl _, numbers⟩).imp (by simp [knows_nil]) fun _ _ => id
  | cons ps alternatives =>
    obtain ⟨plain, plains⟩ := Bool.and_eq_true_iff.1 plain
    rw [lowerBranches, flattenBranches, List.flatMap_cons, List.flatMap_cons]
    split
    · subst numbers
      refine .congr (takeBranch_bind _) (.congr (pushRule_bind _ _) ?_)
      -- the alternative becomes a rule of its own, which gets its place first
      have push : Grows s.rules (s.rules.push ⟨branchName owner s.nextBranch, .choice []⟩) :=
        .push (isMarked_branch owner s.nextBranch)
      refine Succeeds.imp ((lowerPhrases_succeeds ps plain (named.grows push) rfl).bind
        fun ts s' done first => .congr (setBody_bind _ _ _) ?_) knows_append.symm fun _ _ => id
      rw [pure_bind]
      have grows := push.trans (lowersAll_of_lowerPhrases v owner ps plain (named.grows push) done).1
      let rules := s'.rules.modify s.rules.size fun r => { r with body := .choice [ts] }
      have here : Term.Tells (names rules) { symbol := .rule s.rules.size }
          (.ofRule (branchName owner s.nextBranch)) := by
        refine .rule ?_
        rw [names_modify]
        exact first.others.getElem?_names
      refine (lowerBranches_succeeds several alternatives plains (s := { s' with rules })
        ((named.grows grows).modify _ _) first.next).andThen fun lowered s'' _ rest => ?_
      exact .pure ⟨.cons (.cons (here.mono rest.others.names_prefix) .nil) rest.value,
        (first.others.declare (.cons first.value .nil)).trans rest.others, rest.next⟩
    · refine Succeeds.imp ((lowerPhrases_succeeds ps plain named numbers).bind fun ts s' done first => ?_)
        knows_append.symm fun _ _ => id
      have named' := named.grows (lowersAll_of_lowerPhrases v owner ps plain named done).1
      refine (lowerBranches_succeeds several alternatives plains named' first.next).andThen
        fun lowered s'' _ rest => ?_
      exact .pure ⟨.cons (first.value.imp fun _ _ => Term.Tells.mono rest.others.names_prefix) rest.value,
        first.others.trans rest.others, rest.next⟩

end

/-- The alternatives of a declaration are lowered like those of a group in which none are hoisted. -/
theorem lowerAlternatives_eq (alternatives : List (List Phrase)) :
    lowerAlternatives v owner alternatives = lowerBranches v owner false alternatives := by
  induction alternatives with
  | nil => rw [lowerAlternatives, lowerBranches]
  | cons ps alternatives ih => rw [lowerAlternatives, lowerBranches, Bool.false_and, if_neg Bool.false_ne_true, ih]

end

/-- **A declaration** is lowered if the names in it are known. -/
theorem lowerDeclaration_succeeds {d : Declaration} (plain : d.isPlain) {s : Lowering}
    (named : Named ds s.rules) :
    Succeeds (lowerDeclaration v d) s (Knows ds v d.references d.terminals) fun body s' =>
      Rule.Tells (names s'.rules) ⟨d.name, body⟩ d.flatten.1 ∧ Adds s.rules s'.rules d.flatten.2 := by
  cases d with
  | aliasOf name type =>
    rw [lowerDeclaration]
    have known : v.knows type ↔ Knows ds v [] [type] := by simp [Knows]
    refine Succeeds.imp ((checkTerminal_succeeds type s).andThen fun _ s' _ same => ?_) known fun _ _ => id
    subst same
    exact .pure ⟨.aliasOf, .refl _⟩
  | rule name alternatives =>
    rw [lowerDeclaration, lowerAlternatives_eq]
    have lowered := lowerBranches_succeeds v name false alternatives (Bool.and_eq_true_iff.1 plain).2
      (s := { s with nextGroup := 0, nextBranch := 0 }) named rfl
    refine Succeeds.congr ?_ (lowered.andThen fun lowered s' _ h => .pure ⟨.choice h.value, h.others⟩)
    rfl

/-- A rule whose body is to come. -/
def placeholder (d : Declaration) : Rule := ⟨d.name, .choice []⟩

/-- Whether some declarations have been lowered, and others have not. -/
def Halfway (before after : List Declaration) (rules : Array Rule) : Prop :=
  ∃ heads others, rules.toList = heads ++ (after.map placeholder ++ others)
    ∧ List.Forall₂ (Rule.Tells (names rules)) heads (before.map (·.flatten.1))
    ∧ List.Forall₂ (Rule.Tells (names rules)) others (before.flatMap (·.flatten.2))

/-- One more declaration has been lowered. -/
theorem Halfway.setBody {before after : List Declaration} {d : Declaration} {rules rules' : Array Rule}
    (h : Halfway before (d :: after) rules) {body : RuleBody}
    (tells : Rule.Tells (names rules') ⟨d.name, body⟩ d.flatten.1) (adds : Adds rules rules' d.flatten.2) :
    Halfway (before ++ [d]) after (rules'.modify before.length fun r => { r with body }) := by
  have longer := adds.names_prefix
  obtain ⟨heads, others, are, tell, tell'⟩ := h
  obtain ⟨more, are', tell''⟩ := adds
  have length : before.length = heads.length := by rw [tell.length_eq, List.length_map]
  rw [are, List.map_cons, List.cons_append, List.append_assoc, List.cons_append] at are'
  refine ⟨heads ++ [⟨d.name, body⟩], others ++ more, ?_, ?_, ?_⟩
  · rw [length, toList_modify are']
    simp [placeholder]
  · rw [names_modify, List.map_append]
    exact List.rel_append (tell.imp fun _ _ same => same.mono longer) (.cons tells .nil)
  · rw [names_modify, List.flatMap_append, List.flatMap_singleton]
    exact List.rel_append (tell'.imp fun _ _ same => same.mono longer) tell''

/-- Lowering goes on from the declarations that have been lowered already. -/
theorem lowerFrom_succeeds (plain : ∀ d ∈ ds, d.isPlain) {before after : List Declaration}
    (are : before ++ after = ds) {s : Lowering} (named : Named ds s.rules)
    (h : Halfway before after s.rules) :
    Succeeds (lowerFrom v before.length after) s (∀ d ∈ after, Knows ds v d.references d.terminals)
      fun _ s' => Halfway ds [] s'.rules := by
  induction after generalizing before s with
  | nil =>
    rw [List.append_nil] at are
    subst are
    exact (Succeeds.pure h).imp (by simp) fun _ _ => id
  | cons d after ih =>
    have plain' : d.isPlain := plain d (are ▸ List.mem_append_right _ List.mem_cons_self)
    rw [lowerFrom]
    refine ((lowerDeclaration_succeeds plain' named).bind fun body s' done first => ?_).imp
      (List.forall_mem_cons (p := fun d : Declaration => Knows ds v d.references d.terminals)).symm fun _ _ => id
    have named' := (named.grows (lowersBody_of_lowerDeclaration plain' named done).1).modify before.length body
    have are' : (before ++ [d]) ++ after = ds := by rw [List.append_assoc, List.singleton_append, are]
    have rest := ih are' (s := { s' with rules := s'.rules.modify before.length fun r => { r with body } }) named'
      (h.setBody first.1 first.2)
    rw [List.length_append, List.length_singleton] at rest
    exact .congr (setBody_bind _ _ _) rest

/-- **Lowering** succeeds just if all names are known, and makes one rule for each declaration
without groups. -/
theorem lower_eq_ok (v : Vocabulary) (plain : ∀ d ∈ ds, d.isPlain) :
    ((∃ rules, lower v ds = .ok rules) ↔ ∀ d ∈ ds, Knows ds v d.references d.terminals)
      ∧ ∀ rules, lower v ds = .ok rules →
        List.Forall₂ (Rule.Tells (names rules)) rules.toList (flattened ds) := by
  have start : Halfway [] ds (ds.map placeholder).toArray := ⟨[], [], by simp, .nil, .nil⟩
  have all := lowerFrom_succeeds (v := v) plain rfl (s := { rules := (ds.map placeholder).toArray })
    named_placeholders start
  have result {rules : Array Rule} : lower v ds = .ok rules
      ↔ ∃ s', lowerFrom v 0 ds { rules := (ds.map placeholder).toArray } = .ok ((), s') ∧ s'.rules = rules := by
    rw [lower, Except.bind_eq_ok]
    constructor
    · rintro ⟨⟨_, s'⟩, done, eq⟩
      exact ⟨s', done, Except.ok.inj eq⟩
    · rintro ⟨s', done, rfl⟩
      exact ⟨((), s'), done, rfl⟩
  refine ⟨⟨fun done => ?_, fun known => ?_⟩, fun rules done => ?_⟩
  · obtain ⟨rules, done⟩ := done
    obtain ⟨s', ran, -⟩ := result.1 done
    exact (all.of_ok () s' ran).1
  · obtain ⟨_, s', ran⟩ := all.exists_ok known
    exact ⟨s'.rules, result.2 ⟨s', ran, rfl⟩⟩
  · obtain ⟨s', ran, rfl⟩ := result.1 done
    obtain ⟨heads, others, are, tell, tell'⟩ := (all.of_ok () s' ran).2
    rw [List.map_nil, List.nil_append] at are
    rw [are, flattened]
    exact List.rel_append tell tell'

/-! ## Collecting -/

/-- Whether no declaration has this name. -/
def isNew (ds : List Declaration) (d : Declaration) : Bool := ds.all (·.name != d.name)

theorem isNew_eq_false_iff {d : Declaration} : isNew ds d = false ↔ ∃ d' ∈ ds, d'.name = d.name := by
  simp [isNew]

theorem declarations_add (c : Collected) (d : Declaration) :
    (c.add d).declarations = c.declarations ++ [d].filter (isNew c.declarations) := by
  unfold Collected.add
  split
  · next fresh =>
    rw [List.filter_cons_of_pos, List.filter_nil]
    simpa [isNew] using fresh
  · next earlier found =>
    have same : (earlier.name == d.name) = true :=
      List.find?_some (p := fun d' : Declaration => d'.name == d.name) found
    have old := isNew_eq_false_iff.2 ⟨earlier, List.mem_of_find?_eq_some found, beq_iff_eq.1 same⟩
    rw [List.filter_cons_of_neg (Bool.eq_false_iff.1 old), List.filter_nil, List.append_nil]
    split <;> rfl

/-- **Collecting** keeps the first declaration with each name. -/
theorem declarations_foldl_add (c : Collected) (ds : List Declaration) :
    (ds.foldl Collected.add c).declarations = c.declarations ++ (kept ds).filter (isNew c.declarations) := by
  induction ds generalizing c with
  | nil => exact (List.append_nil _).symm
  | cons d ds ih =>
    rw [List.foldl_cons, ih, declarations_add, kept, List.append_assoc]
    congr 1
    cases new : isNew c.declarations d with
    | true =>
      rw [List.filter_cons_of_pos new, List.filter_cons_of_pos new, List.filter_nil, List.filter_filter]
      refine congrArg (d :: ·) (List.filter_congr fun d' _ => ?_)
      rw [isNew, List.all_append, List.all_cons, List.all_nil, Bool.and_true, bne_comm (a := d.name)]
      rfl
    | false =>
      have no := Bool.eq_false_iff.1 new
      rw [List.filter_cons_of_neg no, List.filter_cons_of_neg no, List.filter_nil, List.append_nil,
        List.nil_append, List.filter_filter]
      refine List.filter_congr fun d' _ => ?_
      obtain ⟨earlier, mem, same⟩ := isNew_eq_false_iff.1 new
      cases new' : isNew c.declarations d' with
      | false => rfl
      | true =>
        have other : earlier.name ≠ d'.name := by simpa using List.all_eq_true.1 new' earlier mem
        rw [Bool.true_and, eq_comm, bne_iff_ne, ← same]
        exact other.symm

theorem error_add {c : Collected} (nodup : (c.declarations.map Declaration.name).Nodup) (d : Declaration) :
    (c.add d).error = none ↔ c.error = none ∧ ∀ d' ∈ c.declarations, Agree d' d := by
  unfold Collected.add
  split
  · next fresh =>
    refine (and_iff_left fun d' mem same => ?_).symm
    exact absurd (beq_iff_eq.2 same) (List.find?_eq_none.1 fresh d' mem)
  · next earlier found =>
    have mem := List.mem_of_find?_eq_some found
    have same : (earlier.name == d.name) = true :=
      List.find?_some (p := fun d' : Declaration => d'.name == d.name) found
    replace same := beq_iff_eq.1 same
    split
    · next aliases =>
      refine (and_iff_left fun d' mem' same' => ?_).symm
      rw [List.inj_on_of_nodup_map nodup mem' mem (same'.trans same.symm)]
      exact (Bool.and_eq_true_iff.1 aliases).symm
    · next other =>
      constructor
      · intro fine
        cases error : c.error <;> rw [error] at fine <;> cases fine
      · rintro ⟨-, agree⟩
        exact absurd (Bool.and_eq_true_iff.2 (agree earlier mem same).symm) other

/-- It finds no error if the others are aliases like the first. -/
theorem error_foldl_add {c : Collected} (nodup : (c.declarations.map Declaration.name).Nodup)
    {ds : List Declaration} : (ds.foldl Collected.add c).error = none
      ↔ c.error = none ∧ DeclaredOnce ds ∧ ∀ d ∈ c.declarations, ∀ d' ∈ ds, Agree d d' := by
  induction ds generalizing c with
  | nil => simp [DeclaredOnce]
  | cons d ds ih =>
    -- what is asked of a later declaration is the same whether this one was kept or dropped
    have later (agree : ∀ d' ∈ c.declarations, Agree d' d) (d' : Declaration) :
        (∀ e ∈ (c.add d).declarations, Agree e d') ↔ Agree d d' ∧ ∀ e ∈ c.declarations, Agree e d' := by
      rw [declarations_add, List.forall_mem_append, and_comm]
      refine and_congr_left fun before => ?_
      cases new : isNew c.declarations d with
      | true => rw [List.filter_cons_of_pos new, List.filter_nil, List.forall_mem_singleton]
      | false =>
        rw [List.filter_cons_of_neg (Bool.eq_false_iff.1 new), List.filter_nil]
        refine iff_of_true nofun fun same => ?_
        obtain ⟨earlier, mem, same'⟩ := isNew_eq_false_iff.1 new
        exact ⟨(agree earlier mem same').2, (before earlier mem (same'.trans same)).2⟩
    rw [List.foldl_cons, ih (nodup_add nodup d), error_add nodup, and_assoc]
    refine and_congr_right fun _ => ?_
    unfold DeclaredOnce
    rw [List.pairwise_cons]
    simp only [List.forall_mem_cons]
    constructor
    · rintro ⟨agree, once, others⟩
      have split := fun d' mem => (later agree d').1 fun e mem' => others e mem' d' mem
      exact ⟨⟨fun d' mem => (split d' mem).1, once⟩,
        fun e mem => ⟨agree e mem, fun d' mem' => (split d' mem').2 e mem⟩⟩
    · rintro ⟨⟨first, once⟩, others⟩
      have agree : ∀ e ∈ c.declarations, Agree e d := fun e mem => (others e mem).1
      exact ⟨agree, once, fun e mem d' mem' =>
        (later agree d').2 ⟨first d' mem', fun e mem => (others e mem).2 d' mem'⟩ e mem⟩

theorem declarations_collect (ds : List Declaration) : (collect ds).declarations = kept ds := by
  rw [collect, declarations_foldl_add, List.nil_append]
  exact List.filter_eq_self.2 fun _ _ => rfl

theorem error_collect {ds : List Declaration} : (collect ds).error = none ↔ DeclaredOnce ds := by
  rw [collect, error_foldl_add (c := {}) List.nodup_nil]
  simp

/-! ## Building -/

/-- What is asked of declarations for a grammar with a name: that no rule is declared twice, that
what they ask for is there, and that there is a rule with this name. -/
structure IsComplete (name : String) (v : Vocabulary) (ds : List Declaration) : Prop where
  /-- No name is declared twice, unless as an alias each time. -/
  once : DeclaredOnce ds
  /-- Each rule that is asked for is declared. -/
  references : ∀ d ∈ ds, ∀ name ∈ d.references, ∃ d' ∈ ds, d'.name = name
  /-- Each terminal that is asked for by what counts is known. -/
  terminals : ∀ d ∈ kept ds, ∀ type ∈ d.terminals, v.knows type
  /-- A declaration or a group has the name. -/
  entry : ∃ d ∈ flattened (kept ds), d.name = name

/-- Whether a grammar is made of declarations without groups. -/
structure Realizes (g : Grammar) (ds : List Declaration) : Prop where
  /-- There is a rule for each of them, and it says the same. -/
  rules : List.Forall₂ (Rule.Tells (names g.rules)) g.rules.toList ds
  /-- All rules that terms ask for are there. -/
  valid : ∀ r ∈ g.rules.toList, ∀ lowered, r.body = .choice lowered →
    ∀ ts ∈ lowered, ∀ t ∈ ts, ∀ id, t.symbol = .rule id → id < g.rules.size
  /-- Their names are different. -/
  nodup : (names g.rules).Nodup
  /-- A name is looked up where the rule is. -/
  ruleId? : ∀ name id, g.ruleId? name = some id ↔ ∃ r, g.rules[id]? = some r ∧ r.name = name
  /-- A rule without alternatives is declared like that. -/
  solid : ∀ r ∈ g.rules.toList, r.body = .choice [] → .rule r.name [] ∈ ds

theorem build_eq_ok {name : String} {v : Vocabulary} {ds : List Declaration} {g : Grammar} :
    build name v ds = .ok g ↔ (collect ds).error = none ∧ ∃ rules, lower v (kept ds) = .ok rules
      ∧ ∃ entry, lastId? rules.toList name = some entry
        ∧ g = ⟨name, v, rules, entry, (collect ds).warnings ++ unusedRules rules entry (kept ds).length⟩ := by
  unfold build
  dsimp only
  rw [← declarations_collect]
  cases (collect ds).error with
  | some error =>
    constructor
    · rintro ⟨⟩
    · rintro ⟨⟨⟩, -⟩
  | none =>
    refine Except.bind_eq_ok.trans ((exists_congr fun rules => and_congr_right fun _ => ?_).trans
      (and_iff_right rfl).symm)
    cases lastId? rules.toList name with
    | none =>
      constructor
      · rintro ⟨⟩
      · rintro ⟨_, ⟨⟩, -⟩
    | some entry =>
      constructor
      · intro built
        exact ⟨entry, rfl, (Except.ok.inj built).symm⟩
      · rintro ⟨entry, ⟨⟩, rfl⟩
        rfl

/-- A declaration that does not count has no references. -/
theorem mem_kept {ds : List Declaration} (once : DeclaredOnce ds) {d : Declaration}
    (mem : d ∈ ds) : d ∈ kept ds ∨ d.references = [] := by
  obtain ⟨d', mem', same⟩ := exists_kept mem
  by_cases eq : d' = d
  · exact .inl (eq ▸ mem')
  · have : Std.Symm Agree := ⟨fun _ _ agree same => (agree same.symm).symm⟩
    have isAlias := (once.forall (kept_subset ds mem') mem eq same).2
    cases d with
    | rule => cases isAlias
    | aliasOf => exact .inr rfl

/-- What is known of the references of the declarations that count is known of all. -/
theorem knows_kept {v : Vocabulary} {ds : List Declaration} (once : DeclaredOnce ds) :
    (∀ d ∈ kept ds, Knows (kept ds) v d.references d.terminals)
      ↔ (∀ d ∈ ds, ∀ name ∈ d.references, ∃ d' ∈ ds, d'.name = name)
        ∧ ∀ d ∈ kept ds, ∀ type ∈ d.terminals, v.knows type := by
  have declared (name : String) : (∃ d ∈ kept ds, d.name = name) ↔ ∃ d ∈ ds, d.name = name := by
    constructor
    · rintro ⟨d, mem, named⟩
      exact ⟨d, kept_subset ds mem, named⟩
    · rintro ⟨d, mem, rfl⟩
      exact exists_kept mem
  constructor
  · refine fun known => ⟨fun d mem name asked => ?_, fun d mem => (known d mem).2⟩
    rcases mem_kept once mem with mem | none
    · exact (declared name).1 ((known d mem).1 name asked)
    · rw [none] at asked
      cases asked
  · rintro ⟨references, terminals⟩ d mem
    exact ⟨fun name asked => (declared name).2 (references d (kept_subset ds mem) name asked), terminals d mem⟩

/-- Rules that say the same as declarations with different names are a grammar that is made of them. -/
theorem realizes_of_tells {g : Grammar} {ds : List Declaration}
    (tells : List.Forall₂ (Rule.Tells (names g.rules)) g.rules.toList ds)
    (nodup : (ds.map Declaration.name).Nodup) : g.Realizes ds where
  rules := tells
  valid r mem lowered body ts mem' t mem'' id symbol := by
    obtain ⟨d, -, tell⟩ := exists_mem_of_forall₂ tells mem
    obtain ⟨name, _⟩ := r
    obtain rfl : _ = RuleBody.choice lowered := body
    cases tell with
    | choice same =>
      obtain ⟨ps, -, same⟩ := exists_mem_of_forall₂ same mem'
      obtain ⟨p, -, same⟩ := exists_mem_of_forall₂ same mem''
      cases same with
      | rule there =>
        obtain rfl := Symbol.rule.inj symbol
        simpa [names] using (List.getElem?_eq_some_iff.1 there).1
      | terminal => cases symbol
  nodup := by rwa [names, map_name_of_tells tells]
  ruleId? name id := by
    rw [Grammar.ruleId?, lastId?_eq_some_iff (by rwa [map_name_of_tells tells]), List.getElem?_map,
      Option.map_eq_some_iff, Array.getElem?_toList]
  solid r mem body := by
    obtain ⟨d, mem', tell⟩ := exists_mem_of_forall₂ tells mem
    obtain ⟨name, _⟩ := r
    obtain rfl : _ = RuleBody.choice [] := body
    cases tell with
    | choice same =>
      cases same
      exact mem'

/-- **Building succeeds just if the declarations are complete**, and then the grammar is made of
the declarations without groups. -/
theorem build_eq_ok_iff {name : String} {v : Vocabulary} {ds : List Declaration}
    (plain : ∀ d ∈ ds, d.isPlain) :
    ((∃ g, build name v ds = .ok g) ↔ IsComplete name v ds)
      ∧ ∀ g, build name v ds = .ok g → g.Realizes (flattened (kept ds)) := by
  have plain' : ∀ d ∈ kept ds, d.isPlain := fun d mem => plain d (kept_subset ds mem)
  have nodup := nodup_flattened (nodup_kept ds) fun d mem => d.isMarked_name_of_isPlain (plain' d mem)
  obtain ⟨succeeds, tells⟩ := lower_eq_ok v plain'
  have entry {rules : Array Rule} (lowered : lower v (kept ds) = .ok rules) :
      (∃ id, lastId? rules.toList name = some id) ↔ ∃ d ∈ flattened (kept ds), d.name = name := by
    rw [← Option.isSome_iff_exists, ← Option.ne_none_iff_isSome, ne_eq, lastId?_eq_none_iff,
      map_name_of_tells (tells rules lowered), not_not, List.mem_map]
  refine ⟨⟨fun built => ?_, fun complete => ?_⟩, fun g built => ?_⟩
  · obtain ⟨g, built⟩ := built
    obtain ⟨fine, rules, lowered, id, looked, -⟩ := build_eq_ok.1 built
    have once := error_collect.1 fine
    obtain ⟨references, terminals⟩ := (knows_kept once).1 (succeeds.1 ⟨rules, lowered⟩)
    exact ⟨once, references, terminals, (entry lowered).1 ⟨id, looked⟩⟩
  · have known := (knows_kept complete.once).2 ⟨complete.references, complete.terminals⟩
    obtain ⟨rules, lowered⟩ := succeeds.2 known
    obtain ⟨id, looked⟩ := (entry lowered).2 complete.entry
    exact ⟨_, build_eq_ok.2 ⟨error_collect.2 complete.once, rules, lowered, id, looked, rfl⟩⟩
  · obtain ⟨-, rules, lowered, id, looked, rfl⟩ := build_eq_ok.1 built
    exact realizes_of_tells (tells rules lowered) nodup

end

/-- Lists in brackets, with groups in groups, and a name that is declared again for a terminal that
is not known. -/
def nestedLists : List Declaration :=
  [ .rule "list" [[.exact "(", .group [[.ofRule "item", .group [[.exact ",", .ofRule "item"]] .star none],
      [.exact ",", .ofRule "list"]] .optional (some "items"), .exact ")"]],
    .rule "item" [[.ofRule "word"], [.ofRule "list"]],
    .aliasOf "word" "identifier",
    .aliasOf "word" "number" ]

/-- Building takes the groups out of a declaration, and drops the second alias. -/
theorem build_nestedLists :
    let v := (["(", ")", ","].foldl Vocabulary.addExact .blank).addBuiltin? "identifier" |>.getD .blank
    (∀ d ∈ nestedLists, d.isPlain)
      ∧ IsComplete "list" v nestedLists
      ∧ (flattened (kept nestedLists)).map Declaration.name
        = ["list", "item", "word", "list:0", "list~0", "list:1", "list~1"]
      ∧ ∃ g, build "list" v nestedLists = .ok g ∧ g.Realizes (flattened (kept nestedLists)) := by
  intro v
  have plain : ∀ d ∈ nestedLists, d.isPlain := by decide
  obtain ⟨g, built⟩ : ∃ g, build "list" v nestedLists = .ok g :=
    Option.isSome_iff_exists.1 (by decide +kernel : (build "list" v nestedLists).toOption.isSome)
      |>.imp fun _ => Except.toOption_eq_some.1
  have all := @build_eq_ok_iff "list" v nestedLists plain
  exact ⟨plain, all.1.1 ⟨g, built⟩, by decide, g, built, all.2 g built⟩

end Grammar

end Polyglot
