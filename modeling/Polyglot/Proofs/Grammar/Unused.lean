import Mathlib.Data.List.Perm.Subperm
import Mathlib.Logic.Relation
import Polyglot.Proofs.Grammar.WellFormed

/-!
# Warnings are exact

A grammar that is built warns about each alias that repeats a name, and about each declared rule that
no chain of terms leads to from its entry. What a chain is can be said in two ways. It may run through
the rules that there are in the end (`Grammar.Leads`), which works for any grammar, or through the
names that declarations ask for, groups and all (`Refers`), where nothing is seen of the rules that
are made for groups. That both mean the same is `IsLowering.leads_iff`, for names that are not like
those of groups: if a declaration asks for a name that is, what it gets may be a group.

The search is given one more round than there are rules. That is enough because it keeps the rules
that it has gone on from apart from those in the queue, and all of them are different
(`Grammar.Reaching`). But it takes that there is a rule for each number in a term (`Grammar.Bounded`),
which is true of all that lowering makes, with any names.
-/

namespace Polyglot

open Relation (ReflTransGen)

/-- Whether a declaration with one name asks for another one, maybe in a group. -/
def Refers (ds : List Declaration) (name next : String) : Prop :=
  ∃ d ∈ ds, d.name = name ∧ next ∈ d.references

/-- The names of the rules that alternatives ask for. -/
abbrev referencesOf (alternatives : List (List Phrase)) : List String :=
  alternatives.flatMap (·.flatMap Phrase.references)

namespace Grammar

/-! ## Chains of terms -/

/-- Whether a rule asks for another one in a term. -/
def Asks (rules : Array Rule) (id next : Nat) : Prop :=
  ∃ name alternatives, rules[id]? = some ⟨name, .choice alternatives⟩
    ∧ ∃ ts ∈ alternatives, ∃ t ∈ ts, t.symbol = .rule next

/-- Whether a chain of terms leads from a rule to another one. -/
abbrev Leads (rules : Array Rule) : Nat → Nat → Prop := ReflTransGen (Asks rules)

/-- Whether there is a rule for each number that a term has. -/
def Bounded (rules : Array Rule) : Prop := ∀ id next, Asks rules id next → next < rules.size

section

variable {rules : Array Rule} {id next entry : Nat}

theorem mem_successors : next ∈ successors rules id ↔ Asks rules id next := by
  unfold successors Asks
  split
  · next name alternatives here =>
    rw [List.mem_filterMap]
    constructor
    · rintro ⟨t, mem, symbol⟩
      obtain ⟨ts, mem, mem'⟩ := List.mem_flatten.1 mem
      refine ⟨name, alternatives, here, ts, mem, t, mem', ?_⟩
      split at symbol
      · next asked => rw [asked, Option.some.inj symbol]
      · cases symbol
    · rintro ⟨_, _, here', ts, mem, t, mem', symbol⟩
      obtain ⟨rfl, rfl⟩ : name = _ ∧ alternatives = _ := by simpa using here.symm.trans here'
      exact ⟨t, List.mem_flatten.2 ⟨ts, mem, mem'⟩, by rw [symbol]⟩
  · next other =>
    refine iff_of_false List.not_mem_nil ?_
    rintro ⟨name, alternatives, here, -⟩
    exact other name alternatives here

theorem Leads.lt_size (bounded : Bounded rules) (inside : entry < rules.size) (leads : Leads rules entry id) :
    id < rules.size := by
  cases leads with
  | refl => exact inside
  | tail _ asks => exact bounded _ _ asks

/-! ## The search -/

/-- What is true on the way, of the rules that the search has gone on from and of the queue. -/
structure Reaching (rules : Array Rule) (entry : Nat) (done queue seen : List Nat) : Prop where
  /-- No rule is there twice. -/
  nodup : (done ++ queue).Nodup
  /-- They are those that were seen. -/
  mem_seen : ∀ id, id ∈ seen ↔ id ∈ done ∨ id ∈ queue
  /-- The first one was. -/
  starts : entry ∈ seen
  /-- A chain leads to each. -/
  leads : ∀ id ∈ seen, Leads rules entry id
  /-- What those ask for that the search has gone on from was seen. -/
  closed : ∀ id ∈ done, ∀ next, Asks rules id next → next ∈ seen

/-- The rules that are seen for the first time when the search goes on from a rule. -/
abbrev fresh (rules : Array Rule) (seen : List Nat) (id : Nat) : List Nat :=
  ((successors rules id).filter fun next => !seen.contains next).eraseDups

theorem nodup_eraseDups : ∀ ids : List Nat, ids.eraseDups.Nodup
  | [] => List.nodup_nil
  | id :: ids => by
    rw [List.eraseDups_cons, List.nodup_cons]
    exact ⟨fun mem => by simpa using List.mem_eraseDups.1 mem, nodup_eraseDups _⟩
termination_by ids => ids.length
decreasing_by exact Nat.lt_succ_of_le (List.length_filter_le ..)

theorem mem_fresh {seen : List Nat} : next ∈ fresh rules seen id ↔ Asks rules id next ∧ next ∉ seen := by
  rw [fresh, List.mem_eraseDups, List.mem_filter, mem_successors]
  simp

namespace Reaching

variable {done queue seen : List Nat}

theorem init : Reaching rules entry [] [entry] [entry] where
  nodup := List.nodup_singleton _
  mem_seen id := by simp
  starts := List.mem_singleton_self _
  leads id mem := List.mem_singleton.1 mem ▸ .refl
  closed := nofun

/-- **One round** of the search. -/
theorem step (h : Reaching rules entry done (id :: queue) seen) :
    Reaching rules entry (done ++ [id]) (queue ++ fresh rules seen id) (fresh rules seen id ++ seen) where
  nodup := by
    have apart : ∀ next ∈ done ++ id :: queue, ∀ next' ∈ fresh rules seen id, next ≠ next' := by
      rintro next mem _ mem' rfl
      exact (mem_fresh.1 mem').2 ((h.mem_seen next).2 (List.mem_append.1 mem))
    rw [List.append_assoc, List.singleton_append, ← List.cons_append, ← List.append_assoc, List.nodup_append]
    exact ⟨h.nodup, nodup_eraseDups _, apart⟩
  mem_seen next := by
    have was := h.mem_seen next
    simp only [List.mem_append, List.mem_cons, List.not_mem_nil, or_false] at was ⊢
    tauto
  starts := List.mem_append_right _ h.starts
  leads next mem := by
    rcases List.mem_append.1 mem with mem | mem
    · have here : id ∈ seen := (h.mem_seen id).2 (.inr List.mem_cons_self)
      exact (h.leads id here).tail (mem_fresh.1 mem).1
    · exact h.leads next mem
  closed id' mem next asks := by
    by_cases was : next ∈ seen
    · exact List.mem_append_right _ was
    · refine List.mem_append_left _ ?_
      rcases List.mem_append.1 mem with mem | mem
      · exact absurd (h.closed id' mem next asks) was
      · obtain rfl := List.mem_singleton.1 mem
        exact mem_fresh.2 ⟨asks, was⟩

/-- When the queue is empty, all that a chain leads to was seen. -/
theorem mem_of_leads (h : Reaching rules entry done [] seen) (leads : Leads rules entry id) : id ∈ seen := by
  induction leads with
  | refl => exact h.starts
  | @tail id next _ asks ih =>
    exact h.closed id (((h.mem_seen id).1 ih).resolve_right List.not_mem_nil) next asks

theorem length_le (h : Reaching rules entry done queue seen)
    (valid : ∀ id, Leads rules entry id → id < rules.size) : done.length ≤ rules.size := by
  have inside : done ⊆ List.range rules.size := fun id mem =>
    List.mem_range.2 (valid id (h.leads id ((h.mem_seen id).2 (.inl mem))))
  have alone : done.Nodup := h.nodup.sublist (List.sublist_append_left _ _)
  simpa using (List.subperm_of_subset alone inside).length_le

/-- **The search finds what chains lead to**, if there are more rounds than rules that it has not gone
on from. -/
theorem mem_reachFrom (h : Reaching rules entry done queue seen)
    (valid : ∀ id, Leads rules entry id → id < rules.size) {fuel : Nat}
    (enough : rules.size < fuel + done.length) :
    id ∈ reachFrom rules fuel seen queue ↔ Leads rules entry id := by
  induction fuel generalizing done queue seen with
  | zero => exact absurd (h.length_le valid) (by omega)
  | succ fuel ih =>
    cases queue with
    | nil => exact ⟨h.leads id, h.mem_of_leads⟩
    | cons first queue =>
      refine ih h.step ?_
      rw [List.length_append, List.length_singleton]
      omega

end Reaching

theorem mem_reachable (bounded : Bounded rules) (inside : entry < rules.size) :
    id ∈ reachable rules entry ↔ Leads rules entry id :=
  Reaching.init.mem_reachFrom (fun _ leads => leads.lt_size bounded inside) (Nat.lt_succ_self _)

end

/-! ## Numbers of rules -/

/-- Whether the rules that a term asks for have a number below another one. -/
def Below (n : Nat) (t : Term) : Prop := ∀ next, t.symbol = .rule next → next < n

/-- Whether those that all terms ask for have. -/
abbrev BelowAll (n : Nat) (lowered : List (List Term)) : Prop := ∀ ts ∈ lowered, ∀ t ∈ ts, Below n t

section

variable {rules rules' : Array Rule} {n m : Nat}

theorem Below.mono (le : n ≤ m) {t : Term} (h : Below n t) : Below m t :=
  fun next symbol => Nat.lt_of_lt_of_le (h next symbol) le

theorem Bounded.push (h : Bounded rules) (name : String) : Bounded (rules.push ⟨name, .choice []⟩) := by
  rintro id next ⟨name', alternatives, here, ts, mem, t, mem', symbol⟩
  rw [Array.getElem?_push] at here
  rw [Array.size_push]
  split at here
  · obtain ⟨-, rfl⟩ : name = name' ∧ alternatives = [] := by simpa [eq_comm] using here
    cases mem
  · exact Nat.lt_succ_of_lt (h id next ⟨name', alternatives, here, ts, mem, t, mem', symbol⟩)

theorem Bounded.modify (h : Bounded rules) (id : Nat) {body : RuleBody}
    (below : ∀ lowered, body = .choice lowered → BelowAll rules.size lowered) :
    Bounded (rules.modify id fun r => { r with body }) := by
  rintro id' next ⟨name, alternatives, here, ts, mem, t, mem', symbol⟩
  rw [Array.getElem?_modify] at here
  rw [Array.size_modify]
  split at here
  · obtain ⟨r, -, eq⟩ := Option.map_eq_some_iff.1 here
    exact below alternatives (Rule.mk.inj eq).2 ts mem t mem' next symbol
  · exact h id' next ⟨name, alternatives, here, ts, mem, t, mem', symbol⟩

/-- Whether lowering went on to rules with a number for each of their terms, and for those of a
result. -/
structure Extends {α : Type} (Fits : Nat → α → Prop) (s : Lowering) (a : α) (s' : Lowering) : Prop where
  /-- Rules for groups were added. -/
  grows : Grows s.rules s'.rules
  /-- All numbers are still those of rules. -/
  bounded : Bounded s.rules → Bounded s'.rules
  /-- So are those in the result. -/
  fits : Fits s'.rules.size a

theorem extends_of_setBody {s s' : Lowering} {name : String} (marked : isMarked name)
    {lowered : List (List Term)}
    (h : Extends BelowAll { s with rules := s.rules.push ⟨name, .choice []⟩ } lowered s')
    (multiplicity : Multiplicity) (label : Option String) :
    Extends Below s { symbol := .rule s.rules.size, multiplicity, label }
      { s' with rules := s'.rules.modify s.rules.size fun r => { r with body := .choice lowered } } where
  grows := ((Grows.push marked).trans h.grows).modify (Nat.le_refl _) _
  bounded before := by
    refine (h.bounded (before.push name)).modify _ fun lowered' eq => ?_
    obtain rfl := RuleBody.choice.inj eq
    exact h.fits
  fits next symbol := by
    obtain rfl := Symbol.rule.inj symbol
    have le := h.grows.size_le
    rw [Array.size_push] at le
    rw [Array.size_modify]
    exact le

section

variable (v : Vocabulary) (owner : String)

mutual

/-- **A phrase is lowered** to a term that asks for a rule that there is, whatever the names are. -/
theorem extends_of_lowerPhrase (p : Phrase) {s s' : Lowering} {t : Term}
    (done : lowerPhrase v owner p s = .ok (t, s')) : Extends Below s t s' := by
  cases p with
  | rule name multiplicity label =>
    rw [lowerPhrase, get_bind] at done
    cases looked : lastId? s.rules.toList name with
    | none =>
      rw [looked] at done
      cases done
    | some id =>
      rw [looked] at done
      obtain ⟨rfl, rfl⟩ := Lower.pure_eq_ok.1 done
      refine ⟨.refl _, fun h => h, fun next symbol => ?_⟩
      obtain rfl := Symbol.rule.inj symbol
      simpa using (List.getElem?_eq_some_iff.1 (getElem?_of_lastId? looked)).1
  | terminal name multiplicity label =>
    rw [lowerPhrase, Lower.bind_eq_ok] at done
    obtain ⟨_, s₁, checked, done⟩ := done
    obtain ⟨rfl, rfl⟩ := Lower.pure_eq_ok.1 done
    rw [checkTerminal_eq_ok checked]
    exact ⟨.refl _, fun h => h, fun _ is => by cases is⟩
  | group alternatives multiplicity label =>
    rw [lowerPhrase, takeGroup_bind, pushRule_bind, Lower.bind_eq_ok] at done
    obtain ⟨lowered, s₁, branches, done⟩ := done
    rw [setBody_bind] at done
    obtain ⟨rfl, rfl⟩ := Lower.pure_eq_ok.1 done
    obtain ⟨grows, bounded, fits⟩ := extends_of_lowerBranches _ alternatives branches
    exact extends_of_setBody (s := s) (isMarked_group owner s.nextGroup) ⟨grows, bounded, fits⟩ _ _

theorem extends_of_lowerPhrases (ps : List Phrase) {s s' : Lowering} {ts : List Term}
    (done : lowerPhrases v owner ps s = .ok (ts, s')) :
    Extends (fun n ts => ∀ t ∈ ts, Below n t) s ts s' := by
  cases ps with
  | nil =>
    rw [lowerPhrases] at done
    obtain ⟨rfl, rfl⟩ := Lower.pure_eq_ok.1 done
    exact ⟨.refl _, fun h => h, fun _ is => by cases is⟩
  | cons p ps =>
    rw [lowerPhrases, Lower.bind_eq_ok] at done
    obtain ⟨t, s₁, first, done⟩ := done
    obtain ⟨ts', s₂, others, done⟩ := Lower.bind_eq_ok.1 done
    obtain ⟨rfl, rfl⟩ := Lower.pure_eq_ok.1 done
    have here := extends_of_lowerPhrase p first
    have there := extends_of_lowerPhrases ps others
    exact ⟨here.grows.trans there.grows, fun h => there.bounded (here.bounded h),
      List.forall_mem_cons.2 ⟨here.fits.mono there.grows.size_le, there.fits⟩⟩

theorem extends_of_lowerBranches (several : Bool) (alternatives : List (List Phrase)) {s s' : Lowering}
    {lowered : List (List Term)} (done : lowerBranches v owner several alternatives s = .ok (lowered, s')) :
    Extends BelowAll s lowered s' := by
  cases alternatives with
  | nil =>
    rw [lowerBranches] at done
    obtain ⟨rfl, rfl⟩ := Lower.pure_eq_ok.1 done
    exact ⟨.refl _, fun h => h, fun _ is => by cases is⟩
  | cons ps alternatives =>
    rw [lowerBranches] at done
    split at done
    · rw [takeBranch_bind, pushRule_bind, Lower.bind_eq_ok] at done
      obtain ⟨ts, s₁, first, done⟩ := done
      rw [setBody_bind, pure_bind, Lower.bind_eq_ok] at done
      obtain ⟨lowered', s₂, others, done⟩ := done
      obtain ⟨rfl, rfl⟩ := Lower.pure_eq_ok.1 done
      obtain ⟨grows, bounded, fits⟩ := extends_of_lowerPhrases ps first
      have here := extends_of_setBody (s := s) (isMarked_branch owner s.nextBranch)
        ⟨grows, bounded, List.forall_mem_singleton.2 fits⟩ .one none
      have there := extends_of_lowerBranches several alternatives others
      refine ⟨here.grows.trans there.grows, fun h => there.bounded (here.bounded h),
        List.forall_mem_cons.2 ⟨List.forall_mem_singleton.2 ?_, there.fits⟩⟩
      exact here.fits.mono there.grows.size_le
    · rw [Lower.bind_eq_ok] at done
      obtain ⟨ts, s₁, first, done⟩ := done
      obtain ⟨lowered', s₂, others, done⟩ := Lower.bind_eq_ok.1 done
      obtain ⟨rfl, rfl⟩ := Lower.pure_eq_ok.1 done
      have here := extends_of_lowerPhrases ps first
      have there := extends_of_lowerBranches several alternatives others
      exact ⟨here.grows.trans there.grows, fun h => there.bounded (here.bounded h),
        List.forall_mem_cons.2 ⟨fun t mem => (here.fits t mem).mono there.grows.size_le, there.fits⟩⟩

end

theorem extends_of_lowerAlternatives {alternatives : List (List Phrase)} {s s' : Lowering}
    {lowered : List (List Term)} (done : lowerAlternatives v owner alternatives s = .ok (lowered, s')) :
    Extends BelowAll s lowered s' := by
  induction alternatives generalizing s s' lowered with
  | nil =>
    obtain ⟨rfl, rfl⟩ := Lower.pure_eq_ok.1 done
    exact ⟨.refl _, fun h => h, fun _ is => by cases is⟩
  | cons ps alternatives ih =>
    rw [lowerAlternatives, Lower.bind_eq_ok] at done
    obtain ⟨ts, s₁, first, done⟩ := done
    obtain ⟨lowered', s₂, others, done⟩ := Lower.bind_eq_ok.1 done
    obtain ⟨rfl, rfl⟩ := Lower.pure_eq_ok.1 done
    have here := extends_of_lowerPhrases v owner ps first
    have there := ih others
    exact ⟨here.grows.trans there.grows, fun h => there.bounded (here.bounded h),
      List.forall_mem_cons.2 ⟨fun t mem => (here.fits t mem).mono there.grows.size_le, there.fits⟩⟩

end

/-- What a declaration is lowered to asks for rules that there are. -/
theorem extends_of_lowerDeclaration {v : Vocabulary} {d : Declaration} {s s' : Lowering} {body : RuleBody}
    (done : lowerDeclaration v d s = .ok (body, s')) :
    Extends (fun n body => ∀ lowered, body = .choice lowered → BelowAll n lowered) s body s' := by
  cases d with
  | aliasOf name type =>
    rw [lowerDeclaration, Lower.bind_eq_ok] at done
    obtain ⟨_, s₁, checked, done⟩ := done
    obtain ⟨rfl, rfl⟩ := Lower.pure_eq_ok.1 done
    rw [checkTerminal_eq_ok checked]
    exact ⟨.refl _, fun h => h, fun _ is => by cases is⟩
  | rule name alternatives =>
    obtain ⟨_, s₁, started, done⟩ := Lower.bind_eq_ok.1 done
    obtain ⟨lowered, s₂, alternatives, done⟩ := Lower.bind_eq_ok.1 done
    obtain ⟨rfl, rfl⟩ := Lower.pure_eq_ok.1 done
    obtain ⟨-, rfl⟩ := Prod.mk.inj (Except.ok.inj started)
    obtain ⟨grows, bounded, fits⟩ := extends_of_lowerAlternatives v name alternatives
    refine ⟨grows, bounded, fun lowered' eq => ?_⟩
    obtain rfl := RuleBody.choice.inj eq
    exact fits

theorem bounded_of_lowerFrom {ds : List Declaration} {v : Vocabulary} {id : Nat} {after : List Declaration}
    {s s' : Lowering} (named : Named ds s.rules) (bounded : Bounded s.rules)
    (done : lowerFrom v id after s = .ok ((), s')) : Named ds s'.rules ∧ Bounded s'.rules := by
  induction after generalizing id s with
  | nil =>
    obtain ⟨-, rfl⟩ := Lower.pure_eq_ok.1 done
    exact ⟨named, bounded⟩
  | cons d after ih =>
    obtain ⟨body, s₁, first, done⟩ := Lower.bind_eq_ok.1 done
    rw [setBody_bind] at done
    have here := extends_of_lowerDeclaration first
    exact ih ((named.grows here.grows).modify id body) ((here.bounded bounded).modify id here.fits) done

/-- **Lowering** makes rules with the names of declarations, and they ask for rules that there are. -/
theorem bounded_of_lower {ds : List Declaration} {v : Vocabulary} (done : lower v ds = .ok rules) :
    Named ds rules ∧ Bounded rules := by
  obtain ⟨⟨_, s'⟩, lowered, done⟩ := Except.bind_eq_ok.1 done
  obtain rfl := Except.ok.inj done
  refine bounded_of_lowerFrom named_placeholders ?_ lowered
  rintro id next ⟨name, alternatives, here, ts, mem, -⟩
  obtain ⟨d, -, eq⟩ : ∃ d ∈ ds[id]?, (⟨d.name, .choice []⟩ : Rule) = ⟨name, .choice alternatives⟩ := by
    simpa [Option.mem_def] using here
  obtain rfl := RuleBody.choice.inj (Rule.mk.inj eq).2
  cases mem

end

/-! ## Chains of names -/

section

variable {ds : List Declaration} {rules : Array Rule} {base id next : Nat}

/-- Whether a chain of terms leads from a rule to that of a declaration with a name. -/
def Comes (ds : List Declaration) (rules : Array Rule) (id : Nat) (name : String) : Prop :=
  ∃ (i : Nat) (d : Declaration), Leads rules id i ∧ ds[i]? = some d ∧ d.name = name

theorem Comes.of_leads {name : String} (leads : Leads rules id next) (h : Comes ds rules next name) :
    Comes ds rules id name := by
  obtain ⟨i, d, further, there⟩ := h
  exact ⟨i, d, leads.trans further, there⟩

mutual

/-- What stands for a phrase leads to all that the phrase asks for. -/
theorem Lowers.comes {p : Phrase} {t : Term} : Lowers ds rules base p t →
    ∀ name ∈ p.references, ∃ next, t.symbol = .rule next ∧ Comes ds rules next name
  | .rule found same, name, mem => by
    obtain rfl := List.mem_singleton.1 mem
    exact ⟨_, rfl, _, _, .refl, found, same⟩
  | .terminal, _, mem => absurd mem List.not_mem_nil
  | .group h, name, mem => by
    rw [Phrase.references_group] at mem
    exact ⟨_, rfl, h.comes name mem⟩

theorem LowersAll.comes {ps : List Phrase} {ts : List Term} : LowersAll ds rules base ps ts →
    ∀ name ∈ ps.flatMap Phrase.references, ∃ t ∈ ts, ∃ next, t.symbol = .rule next ∧ Comes ds rules next name
  | .nil, _, mem => absurd mem List.not_mem_nil
  | .cons first others, name, mem => by
    rcases List.mem_append.1 mem with mem | mem
    · exact ⟨_, List.mem_cons_self, first.comes name mem⟩
    · obtain ⟨t, mem, comes⟩ := others.comes name mem
      exact ⟨t, List.mem_cons_of_mem _ mem, comes⟩

theorem LowersGroup.comes {id : Nat} {alternatives : List (List Phrase)} :
    LowersGroup ds rules base id alternatives →
    ∀ name ∈ referencesOf alternatives, Comes ds rules id name
  | .intro _ here h, name, mem => by
    obtain ⟨ts, mem, t, mem', next, symbol, comes⟩ := h.comes name mem
    exact comes.of_leads (.single ⟨_, _, here, ts, mem, t, mem', symbol⟩)

theorem LowersBranches.comes {alternatives : List (List Phrase)} {lowered : List (List Term)} :
    LowersBranches ds rules base alternatives lowered → ∀ name ∈ referencesOf alternatives,
      ∃ ts ∈ lowered, ∃ t ∈ ts, ∃ next, t.symbol = .rule next ∧ Comes ds rules next name
  | .nil, _, mem => absurd mem List.not_mem_nil
  | .direct first others, name, mem => by
    rcases List.mem_append.1 mem with mem | mem
    · exact ⟨_, List.mem_cons_self, first.comes name mem⟩
    · obtain ⟨ts, mem, more⟩ := others.comes name mem
      exact ⟨ts, List.mem_cons_of_mem _ mem, more⟩
  | .hoisted first others, name, mem => by
    rcases List.mem_append.1 mem with mem | mem
    · exact ⟨_, List.mem_cons_self, _, List.mem_singleton_self _, _, rfl,
        first.comes name (by simpa using mem)⟩
    · obtain ⟨ts, mem, more⟩ := others.comes name mem
      exact ⟨ts, List.mem_cons_of_mem _ mem, more⟩

end

/-- Whether a rule is that of a declaration with one of some names, or stands for a group that asks for
no others. -/
def Serves (ds : List Declaration) (rules : Array Rule) (base id : Nat) (names : List String) : Prop :=
  (∃ d, ds[id]? = some d ∧ d.name ∈ names)
    ∨ ∃ alternatives, LowersGroup ds rules base id alternatives ∧ referencesOf alternatives ⊆ names

theorem Serves.mono {names names' : List String} (subset : names ⊆ names')
    (h : Serves ds rules base id names) : Serves ds rules base id names' := by
  rcases h with ⟨d, found, mem⟩ | ⟨alternatives, group, among⟩
  · exact .inl ⟨d, found, subset mem⟩
  · exact .inr ⟨alternatives, group, List.Subset.trans among subset⟩

theorem Lowers.serves {p : Phrase} {t : Term} (h : Lowers ds rules base p t) (symbol : t.symbol = .rule next) :
    Serves ds rules base next p.references := by
  cases h with
  | rule found same =>
    obtain rfl := Symbol.rule.inj symbol
    exact .inl ⟨_, found, List.mem_singleton.2 same⟩
  | terminal => cases symbol
  | group h =>
    obtain rfl := Symbol.rule.inj symbol
    refine .inr ⟨_, h, ?_⟩
    rw [Phrase.references_group]
    exact List.Subset.refl _

theorem LowersAll.serves {ps : List Phrase} {ts : List Term} (h : LowersAll ds rules base ps ts) {t : Term}
    (mem : t ∈ ts) (symbol : t.symbol = .rule next) :
    Serves ds rules base next (ps.flatMap Phrase.references) := by
  induction ps generalizing ts with
  | nil =>
    cases h
    cases mem
  | cons p ps ih =>
    cases h with
    | cons first others =>
      rw [List.flatMap_cons]
      rcases List.mem_cons.1 mem with rfl | mem
      · exact (first.serves symbol).mono (List.subset_append_left _ _)
      · exact (ih others mem).mono (List.subset_append_right _ _)

/-- What the terms for alternatives ask for is asked for by the alternatives. -/
theorem LowersBranches.serves {alternatives : List (List Phrase)} {lowered : List (List Term)}
    (h : LowersBranches ds rules base alternatives lowered) {ts : List Term} (mem : ts ∈ lowered) {t : Term}
    (mem' : t ∈ ts) (symbol : t.symbol = .rule next) :
    Serves ds rules base next (referencesOf alternatives) := by
  induction alternatives generalizing lowered with
  | nil =>
    cases h
    cases mem
  | cons ps alternatives ih =>
    rw [referencesOf, List.flatMap_cons]
    cases h with
    | direct first others =>
      rcases List.mem_cons.1 mem with rfl | mem
      · exact (first.serves mem' symbol).mono (List.subset_append_left _ _)
      · exact (ih others mem).mono (List.subset_append_right _ _)
    | hoisted first others =>
      rcases List.mem_cons.1 mem with rfl | mem
      · obtain rfl := List.mem_singleton.1 mem'
        obtain rfl := Symbol.rule.inj symbol
        refine .inr ⟨[ps], first, ?_⟩
        rw [referencesOf, List.flatMap_singleton]
        exact List.subset_append_left _ _
      · exact (ih others mem).mono (List.subset_append_right _ _)

/-- Whether a rule stands for what is referred to, starting with some name: for a declaration, or for a
group in which nothing else is named. -/
def IsReferredTo (ds : List Declaration) (rules : Array Rule) (source : String) (id : Nat) : Prop :=
  (∃ d, ds[id]? = some d ∧ ReflTransGen (Refers ds) source d.name)
    ∨ ∃ alternatives, LowersGroup ds rules ds.length id alternatives
      ∧ ∀ name ∈ referencesOf alternatives, ReflTransGen (Refers ds) source name

theorem LowersBranches.isReferredTo {source : String} {alternatives : List (List Phrase)}
    {lowered : List (List Term)} (h : LowersBranches ds rules ds.length alternatives lowered)
    (named : ∀ name ∈ referencesOf alternatives, ReflTransGen (Refers ds) source name) {ts : List Term}
    (mem : ts ∈ lowered) {t : Term} (mem' : t ∈ ts) (symbol : t.symbol = .rule next) :
    IsReferredTo ds rules source next := by
  rcases h.serves mem mem' symbol with ⟨d, found, among⟩ | ⟨others, group, among⟩
  · exact .inl ⟨d, found, named _ among⟩
  · exact .inr ⟨others, group, fun name mem => named name (among mem)⟩

/-- Every rule on a chain of terms stands for what is referred to. -/
theorem IsLowering.isReferredTo (h : IsLowering ds rules) {entry : Nat} {first : Declaration}
    (starts : ds[entry]? = some first) {id : Nat} (leads : Leads rules entry id) :
    IsReferredTo ds rules first.name id := by
  induction leads with
  | refl => exact .inl ⟨first, starts, .refl⟩
  | @tail id next _ asks ih =>
    obtain ⟨name, lowered, here, ts, mem, t, mem', symbol⟩ := asks
    rcases ih with ⟨d, found, chain⟩ | ⟨alternatives, group, named⟩
    · have body := h.bodies id d _ found here
      cases d with
      | aliasOf => cases body
      | rule name' alternatives =>
        obtain ⟨lowered', eq, stands⟩ := body
        obtain rfl := RuleBody.choice.inj eq
        exact stands.isReferredTo (fun name mem => chain.tail ⟨_, List.mem_of_getElem? found, rfl, mem⟩)
          mem mem' symbol
    · cases group with
      | intro _ here' stands =>
        obtain ⟨-, rfl⟩ : name = _ ∧ lowered = _ := by simpa using here.symm.trans here'
        exact stands.isReferredTo named mem mem' symbol

/-- A name says where its declaration stands. -/
theorem index_eq_of_name_eq (nodup : (ds.map Declaration.name).Nodup) {i j : Nat} {d d' : Declaration}
    (here : ds[i]? = some d) (there : ds[j]? = some d') (same : d.name = d'.name) : i = j := by
  have inside : i < (ds.map Declaration.name).length := by
    simpa using (List.getElem?_eq_some_iff.1 here).1
  refine (List.getElem?_inj inside nodup).1 ?_
  rw [List.getElem?_map, List.getElem?_map, here, there, Option.map_some, Option.map_some, same]

/-- What is referred to is come to by a chain of terms. -/
theorem IsLowering.comes (h : IsLowering ds rules) (nodup : (ds.map Declaration.name).Nodup)
    {entry : Nat} {first : Declaration} (starts : ds[entry]? = some first) {name : String}
    (chain : ReflTransGen (Refers ds) first.name name) : Comes ds rules entry name := by
  induction chain with
  | refl => exact ⟨entry, first, .refl, starts, rfl⟩
  | @tail name next _ refers ih =>
    obtain ⟨i, d, leads, found, rfl⟩ := ih
    obtain ⟨e, mem, same, asked⟩ := refers
    obtain ⟨j, found'⟩ := List.mem_iff_getElem?.1 mem
    obtain rfl := index_eq_of_name_eq nodup found' found same
    obtain rfl := Option.some.inj (found.symm.trans found')
    obtain ⟨⟨name, _⟩, here, -⟩ := h.declared j d found
    have body := h.bodies j d _ found here
    cases d with
    | aliasOf => cases asked
    | rule name' alternatives =>
      obtain ⟨lowered, rfl, stands⟩ := body
      obtain ⟨ts, mem, t, mem', next, symbol, comes⟩ := stands.comes _ asked
      exact comes.of_leads (leads.tail ⟨name, lowered, here, ts, mem, t, mem', symbol⟩)

/-- **Chains of terms are chains of names**: what stands for groups in the one is left out in the
other. -/
theorem IsLowering.leads_iff (h : IsLowering ds rules) (nodup : (ds.map Declaration.name).Nodup)
    {entry : Nat} {first : Declaration} (starts : ds[entry]? = some first) {id : Nat} {d : Declaration}
    (there : ds[id]? = some d) : Leads rules entry id ↔ ReflTransGen (Refers ds) first.name d.name := by
  constructor
  · intro leads
    rcases h.isReferredTo starts leads with ⟨e, found, chain⟩ | ⟨alternatives, group, -⟩
    · obtain rfl := Option.some.inj (there.symm.trans found)
      exact chain
    · -- the rules for groups come after those for declarations
      obtain ⟨after, -, -⟩ := group
      exact absurd (List.getElem?_eq_some_iff.1 there).1 (Nat.not_lt.2 after)
  · intro chain
    obtain ⟨i, d', leads, found, same⟩ := h.comes nodup starts chain
    obtain rfl := index_eq_of_name_eq nodup found there same
    exact leads

end

/-! ## Repeated aliases -/

/-- The aliases with a name that was declared before, in the order of the declarations. -/
def repeatedAliases (ds : List Declaration) : List Declaration :=
  (ds.zipIdx.filter fun (d, i) => d.isAlias && (ds.take i).any (·.name == d.name)).map Prod.fst

theorem repeatedAliases_concat (ds : List Declaration) (d : Declaration) :
    repeatedAliases (ds ++ [d])
      = repeatedAliases ds ++ if d.isAlias && ds.any (·.name == d.name) then [d] else [] := by
  have before : ∀ x ∈ ds.zipIdx,
      (x.1.isAlias && ((ds ++ [d]).take x.2).any (·.name == x.1.name))
        = (x.1.isAlias && (ds.take x.2).any (·.name == x.1.name)) := by
    rintro ⟨e, i⟩ mem
    have inside := (List.getElem?_eq_some_iff.1 (List.mem_zipIdx_iff_getElem?.1 mem)).1
    rw [List.take_append_of_le_length (Nat.le_of_lt inside)]
  unfold repeatedAliases
  rw [List.zipIdx_append, List.filter_append, List.map_append, List.filter_congr before]
  congr 1
  simp only [List.zipIdx_cons, List.zipIdx_nil, Nat.zero_add, List.filter_cons, List.filter_nil,
    List.take_left']
  split <;> rfl

/-- **Collecting warns about repeated aliases**, each time there is one. -/
theorem warnings_collect {ds : List Declaration} (fine : (collect ds).error = none) :
    (collect ds).warnings = (repeatedAliases ds).map fun d => repeatedAlias d.name := by
  induction ds using List.reverseRecOn with
  | nil => rfl
  | append_singleton ds d ih =>
    have collected : collect (ds ++ [d]) = (collect ds).add d := List.foldl_concat ..
    rw [collected] at fine ⊢
    rw [repeatedAliases_concat, List.map_append, ← ih (find?_add fine).1]
    unfold Collected.add at fine ⊢
    rw [declarations_collect] at fine ⊢
    cases earlier : (kept ds).find? (·.name == d.name) with
    | none =>
      have new : ds.any (·.name == d.name) = false := by
        refine List.any_eq_false.2 fun e mem same => ?_
        obtain ⟨e', mem', same'⟩ := exists_kept mem
        exact List.find?_eq_none.1 earlier e' mem' (by rwa [same'])
      rw [new, Bool.and_false]
      exact (List.append_nil _).symm
    | some e =>
      rw [earlier] at fine
      have same : (e.name == d.name) = true :=
        List.find?_some (p := fun e : Declaration => e.name == d.name) earlier
      have old : ds.any (·.name == d.name) = true :=
        List.any_eq_true.2 ⟨e, kept_subset ds (List.mem_of_find?_eq_some earlier), same⟩
      dsimp only at fine ⊢
      split at fine
      · next aliases =>
        rw [if_pos aliases, old, (Bool.and_eq_true_iff.1 aliases).1]
        rfl
      · cases error : (collect ds).error <;> rw [error] at fine <;> cases fine

/-! ## Unused rules -/

/-- The warnings about rules that are not reached, by the declarations and their numbers. -/
theorem unusedRules_eq {ds : List Declaration} {rules : Array Rule} (named : Named ds rules) (entry : Nat) :
    unusedRules rules entry ds.length
      = (ds.zipIdx.filter fun x => !(reachable rules entry).contains x.2).map fun x => unusedRule x.1.name := by
  have names : (rules.toList.take ds.length).map Rule.name = ds.map Declaration.name := by
    refine List.ext_getElem? fun id => ?_
    rw [List.getElem?_map, List.getElem?_map, List.getElem?_take]
    cases found : ds[id]? with
    | none => rw [if_neg (Nat.not_lt.2 (List.getElem?_eq_none_iff.1 found))]; rfl
    | some d =>
      obtain ⟨r, there, same⟩ := named.declared id d found
      rw [if_pos (List.getElem?_eq_some_iff.1 found).1, Array.getElem?_toList, there, Option.map_some,
        Option.map_some, same]
  have told {α : Type} (name : α → String) (xs : List α) (p : Nat → Bool) :
      (xs.zipIdx.filter fun x => p x.2).map (fun x => unusedRule (name x.1))
        = ((xs.map name).zipIdx.filter fun x => p x.2).map fun x => unusedRule x.1 := by
    rw [List.zipIdx_map, List.filter_map, List.map_map]
    rfl
  exact (told Rule.name _ fun id => !(reachable rules entry).contains id).trans
    (names ▸ (told Declaration.name ds fun id => !(reachable rules entry).contains id).symm)

/-- **The warnings of a grammar** are one for each repeated alias, in the order of the declarations,
and then one for each declared rule that no chain of terms leads to from the entry, in this order too,
and no others. If no name is like that of a group, the chains are those of the names that
declarations ask for, in groups or not, from the name of the grammar. -/
theorem build_warnings {name : String} {v : Vocabulary} {ds : List Declaration} {g : Grammar}
    (built : build name v ds = .ok g) :
    Named (kept ds) g.rules ∧ (names g.rules)[g.entry]? = some name
      ∧ (open scoped Classical in
        g.warnings = (repeatedAliases ds).map (fun d => repeatedAlias d.name)
          ++ ((kept ds).zipIdx.filter fun x => ¬ Leads g.rules g.entry x.2).map fun x => unusedRule x.1.name)
      ∧ ((∀ d ∈ ds, d.isPlain) → isMarked name = false → ∀ id d, (kept ds)[id]? = some d →
        (Leads g.rules g.entry id ↔ ReflTransGen (Refers ds) name d.name)) := by
  obtain ⟨fine, rules, lowered, entry, looked, rfl⟩ := build_eq_ok.1 built
  obtain ⟨named, bounded⟩ := bounded_of_lower lowered
  have starts := getElem?_of_lastId? looked
  have inside : entry < rules.size := by simpa using (List.getElem?_eq_some_iff.1 starts).1
  refine ⟨named, starts, ?warnings, fun plain unmarked id d there => ?chains⟩
  case warnings =>
    show _ ++ unusedRules rules entry (kept ds).length = _
    rw [warnings_collect fine, unusedRules_eq named]
    congr 2
    refine List.filter_congr fun x _ => Bool.eq_iff_iff.2 ?_
    simp only [Bool.not_eq_true', List.contains_eq_mem, decide_eq_false_iff_not, decide_eq_true_eq,
      mem_reachable bounded inside]
  case chains =>
    have plain' : ∀ d ∈ kept ds, d.isPlain := fun d mem => plain d (kept_subset ds mem)
    obtain ⟨first, found, rfl⟩ := named.exists_of_lastId? unmarked looked
    have refers : Refers (kept ds) = Refers ds := by
      funext name next
      refine propext ⟨fun ⟨d, mem, same, asked⟩ => ⟨d, kept_subset ds mem, same, asked⟩, ?_⟩
      rintro ⟨d, mem, same, asked⟩
      rcases mem_kept (error_collect.1 fine) mem with mem | none
      · exact ⟨d, mem, same, asked⟩
      · rw [none] at asked
        cases asked
    rw [← refers]
    exact (isLowering_of_lower plain' lowered).leads_iff (nodup_kept ds) found there

/-- Lists in brackets, with two rules that ask for each other and for lists, but that no list asks for,
and a name that is declared again. -/
def listsAndRing : List Declaration :=
  [ .rule "ring" [[.ofRule "link"], [.ofRule "list"]],
    .rule "list" [[.exact "(", .group [[.ofRule "item", .group [[.exact ",", .ofRule "item"]] .star none],
      [.exact ","]] .optional none, .exact ")"]],
    .rule "link" [[.ofRule "ring", .ofRule "word"]],
    .rule "item" [[.ofRule "word"], [.ofRule "list"]],
    .aliasOf "word" "identifier",
    .aliasOf "word" "identifier" ]

/-- The item of a list is asked for in a group, and the ring is not asked for. -/
theorem build_warnings_ring :
    let v := (["(", ")", ","].foldl Vocabulary.addExact .blank).addBuiltin? "identifier" |>.getD .blank
    ∃ g, build "list" v listsAndRing = .ok g
      ∧ g.warnings = [repeatedAlias "word", unusedRule "ring", unusedRule "link"]
      ∧ Named (kept listsAndRing) g.rules
      ∧ (Leads g.rules g.entry 3 ↔ ReflTransGen (Refers listsAndRing) "list" "item")
      ∧ (Leads g.rules g.entry 0 ↔ ReflTransGen (Refers listsAndRing) "list" "ring") := by
  intro v
  obtain ⟨g, built, warned⟩ : ∃ g, build "list" v listsAndRing = .ok g
      ∧ g.warnings = [repeatedAlias "word", unusedRule "ring", unusedRule "link"] := by
    have computed : (build "list" v listsAndRing).toOption.map Grammar.warnings
        = some [repeatedAlias "word", unusedRule "ring", unusedRule "link"] := by decide +kernel
    obtain ⟨g, built, warned⟩ := Option.map_eq_some_iff.1 computed
    exact ⟨g, Except.toOption_eq_some.1 built, warned⟩
  obtain ⟨named, -, -, chains⟩ := build_warnings built
  have leads := chains (by decide) (by decide)
  exact ⟨g, built, warned, named, leads 3 _ rfl, leads 0 _ rfl⟩

end Grammar

end Polyglot
