import Mathlib.Data.List.Nodup
import Polyglot.Grammar.Build
import Polyglot.Proofs.Success

/-!
# Groups as rules

Building a grammar makes a rule of each group of a declaration, and of some of the alternatives in
it. What comes out is described here without regard to how it is made: which terms stand for which
phrases (`Lowers`), and which rules for which groups (`LowersGroup`). A group may be any rule the
alternatives of which stand for those of the group, whatever its name and its number are.

That building makes such rules is `isLowering_of_build`. The only thing to be careful about is that
a name in a declaration is looked up among all the rules so far, those of groups included. They
have a colon or a tilde in their names (`isMarked`), so nothing goes wrong if the names in the
declarations have none (`Declaration.isPlain`).
-/

namespace Polyglot

/-! ## Names -/

/-- Whether a name is like those of the rules that are made for groups. -/
def isMarked (name : String) : Bool := name.toList.any fun c => c == ':' || c == '~'

mutual

/-- Whether the names of the rules that a phrase asks for are not like those of groups. -/
def Phrase.isPlain : Phrase → Bool
  | .rule name _ _ => !isMarked name
  | .terminal .. => true
  | .group alternatives _ _ => Phrase.arePlainBranches alternatives

/-- Whether those of all phrases of an alternative are not. -/
def Phrase.arePlain : List Phrase → Bool
  | [] => true
  | p :: ps => p.isPlain && Phrase.arePlain ps

/-- Whether those of all phrases of some alternatives are not. -/
def Phrase.arePlainBranches : List (List Phrase) → Bool
  | [] => true
  | ps :: rest => Phrase.arePlain ps && Phrase.arePlainBranches rest

end

/-- Whether the names that a declaration declares and asks for are not like those of groups. -/
def Declaration.isPlain : Declaration → Bool
  | .rule name alternatives => !isMarked name && Phrase.arePlainBranches alternatives
  | .aliasOf name _ => !isMarked name

/-- The name of a declaration whose names are not like those of groups is not. -/
theorem Declaration.isMarked_name_of_isPlain {d : Declaration} (plain : d.isPlain) :
    isMarked d.name = false := by
  cases d with
  | rule name alternatives => exact Bool.not_eq_true' _ ▸ (Bool.and_eq_true_iff.1 plain).1
  | aliasOf name type => exact Bool.not_eq_true' _ ▸ plain

namespace Grammar

/-! ## What stands for what -/

section

variable (ds : List Declaration) (rules : Array Rule)

mutual

/-- Whether a term stands for a phrase, with rules from a number on for the groups in it. -/
inductive Lowers (base : Nat) : Phrase → Term → Prop
  /-- A rule by its name: the one of the declaration with this name. -/
  | rule {name : String} {multiplicity : Multiplicity} {label : Option String} {id : Nat}
      {d : Declaration} : ds[id]? = some d → d.name = name →
      Lowers base (.rule name multiplicity label) { symbol := .rule id, multiplicity, label }
  /-- A terminal. -/
  | terminal {name : String} {multiplicity : Multiplicity} {label : Option String} :
      Lowers base (.terminal name multiplicity label) { symbol := .terminal name, multiplicity, label }
  /-- A rule for a group. -/
  | group {alternatives : List (List Phrase)} {multiplicity : Multiplicity} {label : Option String}
      {id : Nat} : LowersGroup base id alternatives →
      Lowers base (.group alternatives multiplicity label) { symbol := .rule id, multiplicity, label }

/-- Whether terms stand for phrases, one for each. -/
inductive LowersAll (base : Nat) : List Phrase → List Term → Prop
  /-- There are none. -/
  | nil : LowersAll base [] []
  /-- One after the other. -/
  | cons {p : Phrase} {t : Term} {ps : List Phrase} {ts : List Term} :
      Lowers base p t → LowersAll base ps ts → LowersAll base (p :: ps) (t :: ts)

/-- Whether a rule stands for a group. -/
inductive LowersGroup (base : Nat) : Nat → List (List Phrase) → Prop
  /-- A rule with alternatives that stand for those of the group. -/
  | intro {id : Nat} {name : String} {alternatives : List (List Phrase)} {lowered : List (List Term)} :
      base ≤ id → rules[id]? = some ⟨name, .choice lowered⟩ → LowersBranches base alternatives lowered →
      LowersGroup base id alternatives

/-- Whether alternatives stand for alternatives, one for each. -/
inductive LowersBranches (base : Nat) : List (List Phrase) → List (List Term) → Prop
  /-- There are none. -/
  | nil : LowersBranches base [] []
  /-- Terms for phrases. -/
  | direct {ps : List Phrase} {ts : List Term} {alternatives : List (List Phrase)}
      {lowered : List (List Term)} : LowersAll base ps ts → LowersBranches base alternatives lowered →
      LowersBranches base (ps :: alternatives) (ts :: lowered)
  /-- One rule for all phrases. -/
  | hoisted {ps : List Phrase} {id : Nat} {alternatives : List (List Phrase)}
      {lowered : List (List Term)} : LowersGroup base id [ps] → LowersBranches base alternatives lowered →
      LowersBranches base (ps :: alternatives) ([{ symbol := .rule id }] :: lowered)

end

/-- Whether a body stands for a declaration. -/
def LowersBody (base : Nat) : Declaration → RuleBody → Prop
  | .aliasOf _ type, body => body = .aliasOf type
  | .rule _ alternatives, body =>
    ∃ lowered, body = .choice lowered ∧ LowersBranches ds rules base alternatives lowered

end

/-- Whether rules from a number on are kept. -/
def Keeps (base : Nat) (rules rules' : Array Rule) : Prop :=
  ∀ id ≥ base, ∀ r, rules[id]? = some r → rules'[id]? = some r

section

variable {ds : List Declaration} {rules rules' rules'' : Array Rule} {base base' : Nat}

mutual

/-- What stands for a phrase still does so with more rules, and after changes to those before. -/
theorem Lowers.mono (le : base' ≤ base) (same : Keeps base rules rules') {p : Phrase} {t : Term} :
    Lowers ds rules base p t → Lowers ds rules' base' p t
  | .rule found named => .rule found named
  | .terminal => .terminal
  | .group h => .group (h.mono le same)

theorem LowersAll.mono (le : base' ≤ base) (same : Keeps base rules rules') {ps : List Phrase}
    {ts : List Term} : LowersAll ds rules base ps ts → LowersAll ds rules' base' ps ts
  | .nil => .nil
  | .cons first others => .cons (first.mono le same) (others.mono le same)

theorem LowersGroup.mono (le : base' ≤ base) (same : Keeps base rules rules') {id : Nat}
    {alternatives : List (List Phrase)} :
    LowersGroup ds rules base id alternatives → LowersGroup ds rules' base' id alternatives
  | .intro after found h => .intro (Nat.le_trans le after) (same _ after _ found) (h.mono le same)

theorem LowersBranches.mono (le : base' ≤ base) (same : Keeps base rules rules')
    {alternatives : List (List Phrase)} {lowered : List (List Term)} :
    LowersBranches ds rules base alternatives lowered → LowersBranches ds rules' base' alternatives lowered
  | .nil => .nil
  | .direct first others => .direct (first.mono le same) (others.mono le same)
  | .hoisted first others => .hoisted (first.mono le same) (others.mono le same)

end

theorem LowersBody.mono (le : base' ≤ base) (same : Keeps base rules rules') {d : Declaration}
    {body : RuleBody} (h : LowersBody ds rules base d body) : LowersBody ds rules' base' d body := by
  cases d with
  | aliasOf => exact h
  | rule =>
    obtain ⟨lowered, eq, h⟩ := h
    exact ⟨lowered, eq, h.mono le same⟩

/-! ## Rules so far -/

theorem Keeps.refl : Keeps base rules rules := fun _ _ _ found => found

/-- Whether rules are kept and rules for groups are added. -/
structure Grows (rules rules' : Array Rule) : Prop where
  /-- There are not fewer rules. -/
  size_le : rules.size ≤ rules'.size
  /-- Those that there were are kept. -/
  keeps : Keeps 0 rules rules'
  /-- The others have names of groups. -/
  marked : ∀ id r, rules'[id]? = some r → rules.size ≤ id → isMarked r.name

namespace Grows

theorem refl (rules : Array Rule) : Grows rules rules where
  size_le := Nat.le_refl _
  keeps _ _ _ found := found
  marked _ _ found after := absurd (Array.getElem?_eq_some_iff.1 found).1 (Nat.not_lt.2 after)

theorem keepsFrom (h : Grows rules rules') : Keeps base rules rules' :=
  fun id _ r found => h.keeps id (Nat.zero_le _) r found

theorem trans (h : Grows rules rules') (h' : Grows rules' rules'') : Grows rules rules'' where
  size_le := Nat.le_trans h.size_le h'.size_le
  keeps id after r found := h'.keeps id after r (h.keeps id after r found)
  marked id r found after := by
    rcases Nat.lt_or_ge id rules'.size with before | later
    · have found' := Array.getElem?_eq_getElem before
      obtain rfl := Option.some.inj (found.symm.trans (h'.keeps id (Nat.zero_le _) _ found'))
      exact h.marked id _ found' after
    · exact h'.marked id r found later

/-- A rule for a group is added. -/
theorem push {r : Rule} (marked : isMarked r.name) : Grows rules (rules.push r) where
  size_le := by simp
  keeps id _ r' found := by
    have before := (Array.getElem?_eq_some_iff.1 found).1
    rwa [Array.getElem?_push, if_neg (Nat.ne_of_lt before)]
  marked id r' found after := by
    have there := (Array.getElem?_eq_some_iff.1 found).1
    rw [Array.size_push] at there
    obtain rfl : id = rules.size := Nat.le_antisymm (Nat.le_of_lt_succ there) after
    rw [Array.getElem?_push, if_pos rfl] at found
    exact Option.some.inj found ▸ marked

/-- A rule that was added is given another body. -/
theorem modify (h : Grows rules rules') {id : Nat} (after : rules.size ≤ id) (body : RuleBody) :
    Grows rules (rules'.modify id fun r => { r with body }) where
  size_le := by
    rw [Array.size_modify]
    exact h.size_le
  keeps id' after' r found := by
    have before := (Array.getElem?_eq_some_iff.1 found).1
    rw [Array.getElem?_modify, if_neg (by omega)]
    exact h.keeps id' after' r found
  marked id' r found after' := by
    rw [Array.getElem?_modify] at found
    split at found
    · obtain ⟨r', before, rfl⟩ := Option.map_eq_some_iff.1 found
      exact h.marked id' r' before after'
    · exact h.marked id' r found after'

end Grows

/-- The rules behind one that is given another body are kept. -/
theorem keeps_modify {id : Nat} (before : id < base) (body : RuleBody) :
    Keeps base rules (rules.modify id fun r => { r with body }) := by
  intro id' after r found
  rw [Array.getElem?_modify, if_neg (by omega)]
  exact found

/-- Whether rules start with those for declarations, and the others have names of groups. -/
structure Named (ds : List Declaration) (rules : Array Rule) : Prop where
  /-- The rules for the declarations have their names. -/
  declared : ∀ (id : Nat) (d : Declaration), ds[id]? = some d → ∃ r, rules[id]? = some r ∧ r.name = d.name
  /-- The others have names of groups. -/
  marked : ∀ (id : Nat) (r : Rule), rules[id]? = some r → ds.length ≤ id → isMarked r.name

namespace Named

theorem size_le (h : Named ds rules) : ds.length ≤ rules.size := by
  refine Nat.le_of_not_lt fun lt => ?_
  obtain ⟨r, found, -⟩ := h.declared _ _ (List.getElem?_eq_getElem lt)
  exact Nat.lt_irrefl _ (Array.getElem?_eq_some_iff.1 found).1

theorem grows (h : Named ds rules) (h' : Grows rules rules') : Named ds rules' where
  declared id d found := by
    obtain ⟨r, found, named⟩ := h.declared id d found
    exact ⟨r, h'.keeps id (Nat.zero_le _) r found, named⟩
  marked id r found after := by
    rcases Nat.lt_or_ge id rules.size with before | later
    · have found' := Array.getElem?_eq_getElem before
      obtain rfl := Option.some.inj (found.symm.trans (h'.keeps id (Nat.zero_le _) _ found'))
      exact h.marked id _ found' after
    · exact h'.marked id r found later

/-- A name that is not like that of a group is looked up among the declarations. -/
theorem exists_of_lastId? (h : Named ds rules) {name : String} {id : Nat} (plain : isMarked name = false)
    (looked : lastId? rules.toList name = some id) : ∃ d, ds[id]? = some d ∧ d.name = name := by
  obtain ⟨⟨r, i⟩, first, rfl⟩ := Option.map_eq_some_iff.1 looked
  have found : rules[i]? = some r := by
    rw [← Array.getElem?_toList]
    exact List.mem_zipIdx_iff_getElem?.1 (List.mem_reverse.1 (List.mem_of_find?_eq_some first))
  have same : (r.name == name) = true :=
    List.find?_some (p := fun x : Rule × Nat => x.1.name == name) first
  obtain rfl : r.name = name := beq_iff_eq.1 same
  rcases Nat.lt_or_ge i ds.length with before | after
  · obtain ⟨r', found', named⟩ := h.declared i _ (List.getElem?_eq_getElem before)
    obtain rfl := Option.some.inj (found.symm.trans found')
    exact ⟨_, List.getElem?_eq_getElem before, named.symm⟩
  · rw [h.marked i r found after] at plain
    cases plain

end Named

/-! ## Lowering -/

theorem Lower.bind_eq_ok {α β : Type} {x : Lower α} {f : α → Lower β} {s s'' : Lowering} {b : β} :
    (x >>= f) s = .ok (b, s'') ↔ ∃ a s', x s = .ok (a, s') ∧ f a s' = .ok (b, s'') := by
  show (x s >>= fun r => f r.1 r.2) = .ok (b, s'') ↔ _
  rw [Except.bind_eq_ok]
  exact ⟨fun ⟨(a, s'), first, next⟩ => ⟨a, s', first, next⟩,
    fun ⟨a, s', first, next⟩ => ⟨(a, s'), first, next⟩⟩

theorem Lower.pure_eq_ok {α : Type} {a b : α} {s s' : Lowering} :
    (pure a : Lower α) s = .ok (b, s') ↔ a = b ∧ s = s' := by
  show Except.ok (a, s) = .ok (b, s') ↔ _
  simp

section

variable {α : Type} {s : Lowering}

theorem get_bind (f : Lowering → Lower α) : (get >>= f) s = f s s := rfl

theorem takeGroup_bind (f : Nat → Lower α) :
    (takeGroup >>= f) s = f s.nextGroup { s with nextGroup := s.nextGroup + 1 } := rfl

theorem takeBranch_bind (f : Nat → Lower α) :
    (takeBranch >>= f) s = f s.nextBranch { s with nextBranch := s.nextBranch + 1 } := rfl

theorem pushRule_bind (name : String) (f : Nat → Lower α) :
    (pushRule name >>= f) s = f s.rules.size { s with rules := s.rules.push ⟨name, .choice []⟩ } := rfl

theorem setBody_bind (id : Nat) (body : RuleBody) (f : Unit → Lower α) : (setBody id body >>= f) s
    = f () { s with rules := s.rules.modify id fun r => { r with body } } := rfl

theorem checkTerminal_eq_ok {v : Vocabulary} {name : String} {s' : Lowering}
    (checked : checkTerminal v name s = .ok ((), s')) : s = s' := by
  unfold checkTerminal at checked
  split at checked
  · exact (Lower.pure_eq_ok.1 checked).2
  · cases checked

end

/-- What a group is lowered to, given what its alternatives are lowered to. -/
theorem lowersGroup_of_setBody {s s' : Lowering} {name : String} (marked : isMarked name)
    {alternatives : List (List Phrase)} {lowered : List (List Term)}
    (grows : Grows (s.rules.push ⟨name, .choice []⟩) s'.rules)
    (h : LowersBranches ds s'.rules (s.rules.size + 1) alternatives lowered) :
    let rules := s'.rules.modify s.rules.size fun r => { r with body := .choice lowered }
    Grows s.rules rules ∧ LowersGroup ds rules s.rules.size s.rules.size alternatives := by
  have push : Grows s.rules (s.rules.push ⟨name, .choice []⟩) := .push marked
  have here : (s.rules.push ⟨name, .choice []⟩)[s.rules.size]? = some ⟨name, .choice []⟩ :=
    Array.getElem?_push_size
  have there : (s'.rules.modify s.rules.size fun r => { r with body := .choice lowered })[s.rules.size]?
      = some ⟨name, .choice lowered⟩ := by
    rw [Array.getElem?_modify, if_pos rfl, grows.keeps _ (Nat.zero_le _) _ here]
    rfl
  exact ⟨(push.trans grows).modify (Nat.le_refl _) _, .intro (Nat.le_refl _) there
    (h.mono (Nat.le_succ _) (keeps_modify (Nat.lt_succ_self _) _))⟩

theorem isMarked_of_mem {name : String} {c : Char} (mem : c ∈ name.toList) (mark : c = ':' ∨ c = '~') :
    isMarked name := by
  refine List.any_eq_true.2 ⟨c, mem, ?_⟩
  rcases mark with rfl | rfl <;> rfl

theorem isMarked_group (owner : String) (n : Nat) : isMarked s!"{owner}:{n}" := by
  have mem : ':' ∈ (owner ++ ":" ++ toString n).toList := by
    rw [String.toList_append, String.toList_append]
    exact List.mem_append_left _ (List.mem_append_right _ (List.mem_singleton_self _))
  exact isMarked_of_mem mem (.inl rfl)

theorem isMarked_branch (owner : String) (n : Nat) : isMarked s!"{owner}~{n}" := by
  have mem : '~' ∈ (owner ++ "~" ++ toString n).toList := by
    rw [String.toList_append, String.toList_append]
    exact List.mem_append_left _ (List.mem_append_right _ (List.mem_singleton_self _))
  exact isMarked_of_mem mem (.inr rfl)

section

variable (v : Vocabulary) (owner : String)

mutual

/-- **What a phrase is lowered to** stands for it. -/
theorem lowers_of_lowerPhrase (p : Phrase) (plain : p.isPlain) {s s' : Lowering} {t : Term}
    (named : Named ds s.rules) (done : lowerPhrase v owner p s = .ok (t, s')) :
    Grows s.rules s'.rules ∧ Lowers ds s'.rules s.rules.size p t := by
  cases p with
  | rule name multiplicity label =>
    rw [lowerPhrase, get_bind] at done
    cases looked : lastId? s.rules.toList name with
    | none =>
      rw [looked] at done
      cases done
    | some id =>
      rw [looked] at done
      obtain ⟨rfl, rfl⟩ := Lower.pure_eq_ok.1 done
      rw [Phrase.isPlain, Bool.not_eq_true'] at plain
      obtain ⟨d, found, same⟩ := named.exists_of_lastId? plain looked
      exact ⟨.refl _, .rule found same⟩
  | terminal name multiplicity label =>
    rw [lowerPhrase, Lower.bind_eq_ok] at done
    obtain ⟨_, s₁, checked, done⟩ := done
    obtain ⟨rfl, rfl⟩ := Lower.pure_eq_ok.1 done
    rw [checkTerminal_eq_ok checked]
    exact ⟨.refl _, .terminal⟩
  | group alternatives multiplicity label =>
    rw [Phrase.isPlain] at plain
    rw [lowerPhrase, takeGroup_bind, pushRule_bind, Lower.bind_eq_ok] at done
    obtain ⟨lowered, s₁, branches, done⟩ := done
    rw [setBody_bind] at done
    obtain ⟨rfl, rfl⟩ := Lower.pure_eq_ok.1 done
    have marked := isMarked_group owner s.nextGroup
    have push : Grows s.rules (s.rules.push ⟨_, .choice []⟩) := .push marked
    obtain ⟨grows, h⟩ :=
      lowersBranches_of_lowerBranches _ alternatives plain (named.grows push) branches
    rw [Array.size_push] at h
    obtain ⟨grows, group⟩ := lowersGroup_of_setBody marked grows h
    exact ⟨grows, .group group⟩

theorem lowersAll_of_lowerPhrases (ps : List Phrase) (plain : Phrase.arePlain ps) {s s' : Lowering}
    {ts : List Term} (named : Named ds s.rules) (done : lowerPhrases v owner ps s = .ok (ts, s')) :
    Grows s.rules s'.rules ∧ LowersAll ds s'.rules s.rules.size ps ts := by
  cases ps with
  | nil =>
    rw [lowerPhrases] at done
    obtain ⟨rfl, rfl⟩ := Lower.pure_eq_ok.1 done
    exact ⟨.refl _, .nil⟩
  | cons p ps =>
    obtain ⟨plain, plains⟩ := Bool.and_eq_true_iff.1 plain
    rw [lowerPhrases, Lower.bind_eq_ok] at done
    obtain ⟨t, s₁, first, done⟩ := done
    obtain ⟨ts', s₂, others, done⟩ := Lower.bind_eq_ok.1 done
    obtain ⟨rfl, rfl⟩ := Lower.pure_eq_ok.1 done
    obtain ⟨grows, h⟩ := lowers_of_lowerPhrase p plain named first
    obtain ⟨grows', h'⟩ := lowersAll_of_lowerPhrases ps plains (named.grows grows) others
    exact ⟨grows.trans grows', .cons (h.mono (Nat.le_refl _) grows'.keepsFrom)
      (h'.mono grows.size_le .refl)⟩

theorem lowersBranches_of_lowerBranches (several : Bool) (alternatives : List (List Phrase))
    (plain : Phrase.arePlainBranches alternatives) {s s' : Lowering} {lowered : List (List Term)}
    (named : Named ds s.rules)
    (done : lowerBranches v owner several alternatives s = .ok (lowered, s')) :
    Grows s.rules s'.rules ∧ LowersBranches ds s'.rules s.rules.size alternatives lowered := by
  cases alternatives with
  | nil =>
    rw [lowerBranches] at done
    obtain ⟨rfl, rfl⟩ := Lower.pure_eq_ok.1 done
    exact ⟨.refl _, .nil⟩
  | cons ps alternatives =>
    obtain ⟨plain, plains⟩ := Bool.and_eq_true_iff.1 plain
    rw [lowerBranches] at done
    split at done
    · rw [takeBranch_bind, pushRule_bind, Lower.bind_eq_ok] at done
      obtain ⟨ts, s₁, first, done⟩ := done
      rw [setBody_bind, pure_bind, Lower.bind_eq_ok] at done
      obtain ⟨lowered', s₂, others, done⟩ := done
      obtain ⟨rfl, rfl⟩ := Lower.pure_eq_ok.1 done
      have marked := isMarked_branch owner s.nextBranch
      have push : Grows s.rules (s.rules.push ⟨_, .choice []⟩) := .push marked
      obtain ⟨grows, h⟩ := lowersAll_of_lowerPhrases ps plain (named.grows push) first
      rw [Array.size_push] at h
      obtain ⟨grows, group⟩ := lowersGroup_of_setBody marked grows (.direct h .nil)
      obtain ⟨grows', h'⟩ :=
        lowersBranches_of_lowerBranches several alternatives plains (named.grows grows) others
      exact ⟨grows.trans grows', .hoisted (group.mono (Nat.le_refl _) grows'.keepsFrom)
        (h'.mono grows.size_le .refl)⟩
    · rw [Lower.bind_eq_ok] at done
      obtain ⟨ts, s₁, first, done⟩ := done
      obtain ⟨lowered', s₂, others, done⟩ := Lower.bind_eq_ok.1 done
      obtain ⟨rfl, rfl⟩ := Lower.pure_eq_ok.1 done
      obtain ⟨grows, h⟩ := lowersAll_of_lowerPhrases ps plain named first
      obtain ⟨grows', h'⟩ :=
        lowersBranches_of_lowerBranches several alternatives plains (named.grows grows) others
      exact ⟨grows.trans grows', .direct (h.mono (Nat.le_refl _) grows'.keepsFrom)
        (h'.mono grows.size_le .refl)⟩

end

/-- What the alternatives of a declaration are lowered to stands for them. -/
theorem lowersBranches_of_lowerAlternatives {alternatives : List (List Phrase)}
    (plain : Phrase.arePlainBranches alternatives) {s s' : Lowering} {lowered : List (List Term)}
    (named : Named ds s.rules) (done : lowerAlternatives v owner alternatives s = .ok (lowered, s')) :
    Grows s.rules s'.rules ∧ LowersBranches ds s'.rules s.rules.size alternatives lowered := by
  induction alternatives generalizing s s' lowered with
  | nil =>
    obtain ⟨rfl, rfl⟩ := Lower.pure_eq_ok.1 done
    exact ⟨.refl _, .nil⟩
  | cons ps alternatives ih =>
    obtain ⟨plain, plains⟩ := Bool.and_eq_true_iff.1 plain
    rw [lowerAlternatives, Lower.bind_eq_ok] at done
    obtain ⟨ts, s₁, first, done⟩ := done
    obtain ⟨lowered', s₂, others, done⟩ := Lower.bind_eq_ok.1 done
    obtain ⟨rfl, rfl⟩ := Lower.pure_eq_ok.1 done
    obtain ⟨grows, h⟩ := lowersAll_of_lowerPhrases v owner ps plain named first
    obtain ⟨grows', h'⟩ := ih plains (named.grows grows) others
    exact ⟨grows.trans grows', .direct (h.mono (Nat.le_refl _) grows'.keepsFrom)
      (h'.mono grows.size_le .refl)⟩

end

/-- What a declaration is lowered to stands for it. -/
theorem lowersBody_of_lowerDeclaration {v : Vocabulary} {d : Declaration} (plain : d.isPlain)
    {s s' : Lowering} {body : RuleBody} (named : Named ds s.rules)
    (done : lowerDeclaration v d s = .ok (body, s')) :
    Grows s.rules s'.rules ∧ LowersBody ds s'.rules ds.length d body := by
  cases d with
  | aliasOf name type =>
    rw [lowerDeclaration, Lower.bind_eq_ok] at done
    obtain ⟨_, s₁, checked, done⟩ := done
    obtain ⟨rfl, rfl⟩ := Lower.pure_eq_ok.1 done
    rw [checkTerminal_eq_ok checked]
    exact ⟨.refl _, rfl⟩
  | rule name alternatives =>
    obtain ⟨_, s₁, started, done⟩ := Lower.bind_eq_ok.1 done
    obtain ⟨lowered, s₂, alternatives, done⟩ := Lower.bind_eq_ok.1 done
    obtain ⟨rfl, rfl⟩ := Lower.pure_eq_ok.1 done
    obtain ⟨-, rfl⟩ := Prod.mk.inj (Except.ok.inj started)
    obtain ⟨grows, h⟩ := lowersBranches_of_lowerAlternatives v name (Bool.and_eq_true_iff.1 plain).2
      (s := { s with nextGroup := 0, nextBranch := 0 }) named alternatives
    exact ⟨grows, lowered, rfl, h.mono named.size_le .refl⟩

/-- **What building makes of declarations**: rules that stand for them, and others for their
groups. -/
structure IsLowering (ds : List Declaration) (rules : Array Rule) : Prop extends Named ds rules where
  /-- The rules with the numbers of the declarations stand for them. -/
  bodies : ∀ (id : Nat) (d : Declaration) (r : Rule), ds[id]? = some d → rules[id]? = some r →
    LowersBody ds rules ds.length d r.body

/-- The names stay when a rule is given a body. -/
theorem Named.modify (h : Named ds rules) (id : Nat) (body : RuleBody) :
    Named ds (rules.modify id fun r => { r with body }) where
  declared i d found := by
    obtain ⟨r, found, named⟩ := h.declared i d found
    rw [Array.getElem?_modify, found]
    split
    · exact ⟨_, rfl, named⟩
    · exact ⟨r, rfl, named⟩
  marked i r found after := by
    rw [Array.getElem?_modify] at found
    split at found
    · obtain ⟨r', before, rfl⟩ := Option.map_eq_some_iff.1 found
      exact h.marked i r' before after
    · exact h.marked i r found after

/-- Lowering goes on from the declarations that have been lowered already. -/
theorem isLowering_of_lowerFrom {v : Vocabulary} (plain : ∀ d ∈ ds, d.isPlain) {id : Nat}
    {after : List Declaration} (rest : ds.drop id = after) {s s' : Lowering} (named : Named ds s.rules)
    (before : ∀ (i : Nat) (d : Declaration) (r : Rule), i < id → ds[i]? = some d → s.rules[i]? = some r →
      LowersBody ds s.rules ds.length d r.body)
    (done : lowerFrom v id after s = .ok ((), s')) : IsLowering ds s'.rules := by
  induction after generalizing id s with
  | nil =>
    obtain ⟨-, rfl⟩ := Lower.pure_eq_ok.1 done
    have all : ds.length ≤ id := List.drop_eq_nil_iff.1 rest
    exact { named with
      bodies := fun i d r found =>
        before i d r (Nat.lt_of_lt_of_le (List.getElem?_eq_some_iff.1 found).1 all) found }
  | cons d after ih =>
    have here : ds[id]? = some d := by rw [← List.head?_drop, rest, List.head?_cons]
    have inside : id < ds.length := (List.getElem?_eq_some_iff.1 here).1
    obtain ⟨body, s₁, first, done⟩ := Lower.bind_eq_ok.1 done
    rw [setBody_bind] at done
    obtain ⟨grows, h⟩ := lowersBody_of_lowerDeclaration (plain d (List.mem_of_getElem? here)) named first
    refine ih (by rw [← List.drop_drop, rest, List.drop_one, List.tail_cons])
      ((named.grows grows).modify id body) (fun i d' r lt found found' => ?_) done
    have keeps : Keeps ds.length s₁.rules _ := keeps_modify inside body
    rw [Array.getElem?_modify] at found'
    split at found'
    · next same =>
      subst same
      obtain rfl := Option.some.inj (here.symm.trans found)
      obtain ⟨r', -, rfl⟩ := Option.map_eq_some_iff.1 found'
      exact h.mono (Nat.le_refl _) keeps
    · next other =>
      have earlier : i < id := by omega
      obtain ⟨r', found'', -⟩ := named.declared i d' found
      obtain rfl := Option.some.inj ((grows.keepsFrom i (Nat.zero_le _) _ found'').symm.trans found')
      exact ((before i d' r' earlier found found'').mono (Nat.le_refl _) grows.keepsFrom).mono
        (Nat.le_refl _) keeps

/-- The rules that are there for the names of declarations before anything is lowered. -/
theorem named_placeholders :
    Named ds (ds.map fun d => { name := d.name, body := .choice [] } : List Rule).toArray where
  declared id d found := by simp [found]
  marked id r found after := by
    rw [List.getElem?_toArray, List.getElem?_map, List.getElem?_eq_none after] at found
    cases found

/-- **Lowering** makes rules that stand for declarations. -/
theorem isLowering_of_lower {v : Vocabulary} (plain : ∀ d ∈ ds, d.isPlain)
    (done : lower v ds = .ok rules) : IsLowering ds rules := by
  obtain ⟨⟨_, s'⟩, lowered, done⟩ := Except.bind_eq_ok.1 done
  obtain rfl := Except.ok.inj done
  exact isLowering_of_lowerFrom plain (List.drop_zero ..) named_placeholders
    (fun _ _ _ none => absurd none (Nat.not_lt_zero _)) lowered

end

/-! ## Collecting -/

/-- Names that are declared once are so if one more declaration is taken in. -/
theorem nodup_add {c : Collected} (nodup : (c.declarations.map Declaration.name).Nodup) (d : Declaration) :
    ((c.add d).declarations.map Declaration.name).Nodup := by
  unfold Collected.add
  split
  · next fresh =>
    rw [List.map_append, List.map_singleton, List.nodup_append]
    refine ⟨nodup, List.nodup_singleton _, fun name mem name' mem' same => ?_⟩
    obtain ⟨d', among, rfl⟩ := List.mem_map.1 mem
    obtain rfl := List.mem_singleton.1 mem'
    exact List.find?_eq_none.1 fresh d' among (beq_iff_eq.2 same)
  · split <;> exact nodup

theorem nodup_foldl_add {c : Collected} (nodup : (c.declarations.map Declaration.name).Nodup)
    (ds : List Declaration) :
    ((ds.foldl Collected.add c).declarations.map Declaration.name).Nodup := by
  induction ds generalizing c with
  | nil => exact nodup
  | cons d ds ih => exact ih (nodup_add nodup d)

/-- What is taken in without an error is the first with its name, or like the first. -/
theorem find?_add {c : Collected} {d : Declaration} (fine : (c.add d).error = none) :
    c.error = none ∧ ∀ name, (c.add d).declarations.find? (·.name == name)
      = (c.declarations ++ [d]).find? (·.name == name) := by
  unfold Collected.add at fine ⊢
  split at fine
  · next fresh => exact ⟨fine, fun _ => rfl⟩
  · next earlier found =>
    split at fine
    · next aliases =>
      refine ⟨fine, fun name => ?_⟩
      rw [if_pos aliases, List.find?_append]
      cases looked : c.declarations.find? (·.name == name) with
      | some => rfl
      | none =>
        have other : d.name ≠ name := fun same => by
          rw [same] at found
          rw [found] at looked
          cases looked
        rw [Option.none_or, List.find?_singleton, if_neg (by simpa using other)]
    · cases error : c.error with
      | none => rw [error] at fine; cases fine
      | some => rw [error] at fine; cases fine

theorem find?_foldl_add {c : Collected} {ds : List Declaration}
    (fine : (ds.foldl Collected.add c).error = none) :
    c.error = none ∧ ∀ name, (ds.foldl Collected.add c).declarations.find? (·.name == name)
      = (c.declarations ++ ds).find? (·.name == name) := by
  induction ds generalizing c with
  | nil => exact ⟨fine, fun name => by rw [List.append_nil]; rfl⟩
  | cons d ds ih =>
    obtain ⟨fine, later⟩ := ih fine
    obtain ⟨fine, first⟩ := find?_add fine
    refine ⟨fine, fun name => ?_⟩
    rw [List.foldl_cons, later, List.find?_append, first, ← List.find?_append, List.append_assoc,
      List.singleton_append]

/-- A declaration is the one that is found with its name, if names are declared once. -/
theorem find?_of_getElem? {ds : List Declaration} (nodup : (ds.map Declaration.name).Nodup) {id : Nat}
    {d : Declaration} (there : ds[id]? = some d) : ds.find? (·.name == d.name) = some d := by
  have mem := List.mem_of_getElem? there
  cases found : ds.find? (·.name == d.name) with
  | none => exact absurd (beq_self_eq_true _) (List.find?_eq_none.1 found d mem)
  | some d' =>
    have same : d'.name = d.name := by simpa using List.find?_some found
    rw [List.inj_on_of_nodup_map nodup (List.mem_of_find?_eq_some found) mem same]

/-! ## Building -/

/-- **A grammar that is built** has rules that stand for the declarations, each of which is the first
one with its name, and starts from the one with the name of the grammar. -/
theorem isLowering_of_build {name : String} {v : Vocabulary} {ds : List Declaration} {g : Grammar}
    (built : build name v ds = .ok g) (plain : ∀ d ∈ ds, d.isPlain) :
    ∃ ds', IsLowering ds' g.rules ∧ (∀ name, ds'.find? (·.name == name) = ds.find? (·.name == name))
      ∧ (ds'.map Declaration.name).Nodup ∧ lastId? g.rules.toList name = some g.entry := by
  unfold build at built
  dsimp only at built
  split at built
  · cases built
  · next fine =>
    have fine : (collect ds).error = none := Option.eq_none_iff_forall_ne_some.2 fine
    obtain ⟨rules, lowered, built⟩ := Except.bind_eq_ok.1 built
    split at built
    · cases built
    · next entry looked =>
      obtain rfl := Except.ok.inj built
      have nodup : ((collect ds).declarations.map Declaration.name).Nodup :=
        nodup_foldl_add (c := {}) List.nodup_nil ds
      have found := (find?_foldl_add fine).2
      refine ⟨(collect ds).declarations, isLowering_of_lower (fun d mem => ?_) lowered, found, nodup, looked⟩
      obtain ⟨id, there⟩ := List.mem_iff_getElem?.1 mem
      exact plain d (List.mem_of_find?_eq_some ((found d.name).symm.trans (find?_of_getElem? nodup there)))

end Grammar

end Polyglot
