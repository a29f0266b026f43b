import Polyglot.Proofs.Grammar.Groups
import Polyglot.Proofs.Parsing.Induction
import Polyglot.Proofs.Parsing.Tokens

/-!
# What declarations generate

Declarations are a grammar in the ordinary sense: which tokens a phrase stands for has nothing to do
with how they are parsed. A phrase stands for any of its alternatives, as often as its multiplicity
admits (`Generates`). For the rules that are made of declarations the same can be said with numbers
for names, and without groups (`Yields`); and it is the same (`once_iff_yields`).

What is parsed is generated (`yields_of_parseTokens`). That what is generated is parsed is not true
of all grammars. Reserved terminals are not provided for: no token is read for them, so grammars that
ask for them are not meant.
-/

namespace Polyglot

/-- How often a phrase matches. -/
def Phrase.multiplicity : Phrase → Multiplicity
  | rule _ multiplicity _ => multiplicity
  | terminal _ multiplicity _ => multiplicity
  | group _ multiplicity _ => multiplicity

namespace Grammar

/-! ## By names -/

section

variable (ds : List Declaration)

mutual

/-- Whether tokens are what a phrase stands for, without regard to its multiplicity. -/
inductive Once : Phrase → List Token → Prop
  /-- One of the alternatives that are declared with the name. -/
  | rule {name : String} {multiplicity : Multiplicity} {label : Option String}
      {alternatives : List (List Phrase)} {ps : List Phrase} {tokens : List Token} :
      .rule name alternatives ∈ ds → ps ∈ alternatives → GeneratesAll ps tokens →
      Once (.rule name multiplicity label) tokens
  /-- A token, by another name. -/
  | another {name type : String} {multiplicity : Multiplicity} {label : Option String} {token : Token} :
      .aliasOf name type ∈ ds → token.type = type → Once (.rule name multiplicity label) [token]
  /-- A token. -/
  | terminal {type : String} {multiplicity : Multiplicity} {label : Option String} {token : Token} :
      token.type = type → Once (.terminal type multiplicity label) [token]
  /-- One of the alternatives of a group. -/
  | group {alternatives : List (List Phrase)} {multiplicity : Multiplicity} {label : Option String}
      {ps : List Phrase} {tokens : List Token} :
      ps ∈ alternatives → GeneratesAll ps tokens → Once (.group alternatives multiplicity label) tokens

/-- Whether tokens are what a phrase stands for. -/
inductive Generates : Phrase → List Token → Prop
  /-- As many stretches as there may be, each of which is what the phrase stands for once. -/
  | intro {p : Phrase} {parts : List (List Token)} : p.multiplicity.Admits parts.length →
      (∀ part ∈ parts, Once p part) → Generates p parts.flatten

/-- Whether tokens are what phrases stand for, one after the other. -/
inductive GeneratesAll : List Phrase → List Token → Prop
  /-- There are none. -/
  | nil : GeneratesAll [] []
  /-- One and the others. -/
  | cons {p : Phrase} {ps : List Phrase} {tokens more : List Token} :
      Generates p tokens → GeneratesAll ps more → GeneratesAll (p :: ps) (tokens ++ more)

end

variable {ds} in
/-- What a phrase stands for that matches once. -/
theorem generates_iff_once {p : Phrase} (once : p.multiplicity = .one) {tokens : List Token} :
    Generates ds p tokens ↔ Once ds p tokens := by
  refine ⟨fun h => ?_, fun h => ?_⟩
  · cases h with
    | @intro _ parts admits each =>
      rw [once] at admits
      obtain ⟨part, rfl⟩ := List.length_eq_one_iff.1 admits
      rw [List.flatten_singleton]
      exact each part (List.mem_singleton_self _)
  · rw [← List.flatten_singleton (l := tokens)]
    refine .intro (by rw [once]; rfl) fun part mem => ?_
    rwa [List.mem_singleton.1 mem]

end

/-! ## By numbers -/

section

variable (g : Grammar)

mutual

/-- Whether tokens are what a symbol stands for. -/
inductive Yields : Symbol → List Token → Prop
  /-- A token. -/
  | terminal {type : String} {token : Token} : token.type = type → Yields (.terminal type) [token]
  /-- A token, by another name. -/
  | another {id : Nat} {name type : String} {token : Token} :
      g.rules[id]? = some ⟨name, .aliasOf type⟩ → token.type = type → Yields (.rule id) [token]
  /-- One of the alternatives of a rule. -/
  | choice {id : Nat} {name : String} {alternatives : List (List Term)} {terms : List Term}
      {tokens : List Token} : g.rules[id]? = some ⟨name, .choice alternatives⟩ → terms ∈ alternatives →
      YieldsAll terms tokens → Yields (.rule id) tokens

/-- Whether tokens are what a term stands for. -/
inductive YieldsTerm : Term → List Token → Prop
  /-- As many stretches as there may be, each of which is what the symbol stands for. -/
  | intro {t : Term} {parts : List (List Token)} : t.multiplicity.Admits parts.length →
      (∀ part ∈ parts, Yields t.symbol part) → YieldsTerm t parts.flatten

/-- Whether tokens are what terms stand for, one after the other. -/
inductive YieldsAll : List Term → List Token → Prop
  /-- There are none. -/
  | nil : YieldsAll [] []
  /-- One and the others. -/
  | cons {t : Term} {ts : List Term} {tokens more : List Token} :
      YieldsTerm t tokens → YieldsAll ts more → YieldsAll (t :: ts) (tokens ++ more)

end

end

section

variable {g : Grammar} {id : Nat} {tokens : List Token} {t : Term} {ts : List Term}

/-- What a rule with alternatives stands for. -/
theorem Yields.of_choice (h : g.Yields (.rule id) tokens) {name : String}
    {alternatives : List (List Term)} (there : g.rules[id]? = some ⟨name, .choice alternatives⟩) :
    ∃ terms ∈ alternatives, g.YieldsAll terms tokens := by
  cases h with
  | another found _ =>
    have same := Option.some.inj (found.symm.trans there)
    cases same
  | choice found mem all =>
    obtain ⟨-, rfl⟩ := choice_inj (found.symm.trans there)
    exact ⟨_, mem, all⟩

/-- What a rule with one alternative stands for. -/
theorem Yields.of_only (h : g.Yields (.rule id) tokens) {name : String} {terms : List Term}
    (there : g.rules[id]? = some ⟨name, .choice [terms]⟩) : g.YieldsAll terms tokens := by
  obtain ⟨terms', mem, all⟩ := h.of_choice there
  exact List.mem_singleton.1 mem ▸ all

/-- What another name for a terminal stands for. -/
theorem Yields.of_alias (h : g.Yields (.rule id) tokens) {name type : String}
    (there : g.rules[id]? = some ⟨name, .aliasOf type⟩) :
    ∃ token, tokens = [token] ∧ token.type = type := by
  cases h with
  | another found is =>
    obtain ⟨-, rfl⟩ := alias_inj (found.symm.trans there)
    exact ⟨_, rfl, is⟩
  | choice found _ _ =>
    have same := Option.some.inj (found.symm.trans there)
    cases same

theorem Yields.of_terminal {type : String} (h : g.Yields (.terminal type) tokens) :
    ∃ token, tokens = [token] ∧ token.type = type := by
  cases h with
  | terminal is => exact ⟨_, rfl, is⟩

theorem YieldsAll.of_cons (h : g.YieldsAll (t :: ts) tokens) :
    ∃ first more, tokens = first ++ more ∧ g.YieldsTerm t first ∧ g.YieldsAll ts more := by
  cases h with
  | cons first others => exact ⟨_, _, rfl, first, others⟩

theorem YieldsAll.of_nil (h : g.YieldsAll [] tokens) : tokens = [] := by
  cases h
  rfl

theorem yieldsAll_append {ts' : List Term} :
    g.YieldsAll (ts ++ ts') tokens
      ↔ ∃ first more, tokens = first ++ more ∧ g.YieldsAll ts first ∧ g.YieldsAll ts' more := by
  induction ts generalizing tokens with
  | nil =>
    refine ⟨fun h => ⟨[], tokens, rfl, .nil, h⟩, ?_⟩
    rintro ⟨first, more, rfl, here, later⟩
    rw [here.of_nil]
    exact later
  | cons t ts ih =>
    constructor
    · intro h
      obtain ⟨first, more, rfl, here, later⟩ := h.of_cons
      obtain ⟨first', more, rfl, here', later⟩ := ih.1 later
      exact ⟨first ++ first', more, (List.append_assoc ..).symm, .cons here here', later⟩
    · rintro ⟨first, more, rfl, here, later⟩
      obtain ⟨first, first', rfl, here, here'⟩ := here.of_cons
      rw [List.append_assoc]
      exact .cons here (ih.2 ⟨first', more, rfl, here', later⟩)

/-- What a term stands for that matches once. -/
theorem YieldsTerm.once_iff (once : t.multiplicity = .one) :
    g.YieldsTerm t tokens ↔ g.Yields t.symbol tokens := by
  refine ⟨fun h => ?_, fun h => ?_⟩
  · cases h with
    | @intro _ parts admits each =>
      rw [once] at admits
      obtain ⟨part, rfl⟩ := List.length_eq_one_iff.1 admits
      rw [List.flatten_singleton]
      exact each part (List.mem_singleton_self _)
  · rw [← List.flatten_singleton (l := tokens)]
    refine .intro (by rw [once]; rfl) fun part mem => ?_
    rwa [List.mem_singleton.1 mem]

end

section

variable {g : Grammar} {tokens : List Token} {t : Term} {ts : List Term}

theorem yieldsAll_singleton : g.YieldsAll [t] tokens ↔ g.YieldsTerm t tokens := by
  refine ⟨fun h => ?_, fun h => ?_⟩
  · obtain ⟨first, more, rfl, here, later⟩ := h.of_cons
    rwa [later.of_nil, List.append_nil]
  · rw [← List.append_nil tokens]
    exact .cons h .nil

/-- What a term alone stands for that matches once. -/
theorem yieldsAll_once_iff (once : t.multiplicity = .one) :
    g.YieldsAll [t] tokens ↔ g.Yields t.symbol tokens :=
  yieldsAll_singleton.trans (YieldsTerm.once_iff once)

/-- What a term stands for that may match nothing. -/
theorem YieldsTerm.optional_iff (optional : t.multiplicity = .optional) :
    g.YieldsTerm t tokens ↔ tokens = [] ∨ g.Yields t.symbol tokens := by
  refine ⟨fun h => ?_, fun h => ?_⟩
  · cases h with
    | @intro _ parts admits each =>
      rw [optional] at admits
      match parts, admits with
      | [], _ => exact .inl rfl
      | [part], _ =>
        rw [List.flatten_singleton]
        exact .inr (each part (List.mem_singleton_self _))
  · rcases h with rfl | h
    · exact @YieldsTerm.intro g t [] (by rw [optional]; exact Nat.zero_le 1) (List.forall_mem_nil _)
    · rw [← List.flatten_singleton (l := tokens)]
      refine .intro (by rw [optional]; exact Nat.le_refl 1) fun part mem => ?_
      rwa [List.mem_singleton.1 mem]

/-- Terms the first of which is a rule that matches once. -/
theorem YieldsAll.of_rule {id : Nat} (h : g.YieldsAll (t :: ts) tokens) (once : t.multiplicity = .one)
    (symbol : t.symbol = .rule id) :
    ∃ first more, tokens = first ++ more ∧ g.Yields (.rule id) first ∧ g.YieldsAll ts more := by
  obtain ⟨first, more, eq, here, later⟩ := h.of_cons
  exact ⟨first, more, eq, symbol ▸ (YieldsTerm.once_iff once).1 here, later⟩

/-- Terms the first of which is a terminal that matches once. -/
theorem YieldsAll.of_terminal {type : String} (h : g.YieldsAll (t :: ts) tokens)
    (once : t.multiplicity = .one) (symbol : t.symbol = .terminal type) :
    ∃ token more, tokens = token :: more ∧ token.type = type ∧ g.YieldsAll ts more := by
  obtain ⟨first, more, rfl, here, later⟩ := h.of_cons
  have here : g.Yields (.terminal type) first := symbol ▸ (YieldsTerm.once_iff once).1 here
  obtain ⟨token, rfl, is⟩ := here.of_terminal
  exact ⟨token, more, rfl, is, later⟩

end

/-! ## Names and numbers -/

section

variable {ds : List Declaration} {g : Grammar}

/-- A phrase and the term for it match as often. -/
theorem Lowers.multiplicity_eq {base : Nat} {p : Phrase} {t : Term} (lowers : Lowers ds g.rules base p t) :
    t.multiplicity = p.multiplicity := by
  cases lowers <;> rfl

mutual

/-- The rule for a group stands for what an alternative of it stands for. -/
theorem LowersGroup.yields {base : Nat} {ps : List Phrase} {tokens : List Token}
    (all : ∀ ts, LowersAll ds g.rules base ps ts → g.YieldsAll ts tokens) {id : Nat}
    {alternatives : List (List Phrase)} :
    LowersGroup ds g.rules base id alternatives → ps ∈ alternatives → g.Yields (.rule id) tokens
  | .intro _ there lowers, mem =>
    let ⟨_, mem, yields⟩ := lowers.exists_yieldsAll all mem
    .choice there mem yields

/-- What stands for phrases is among what stands for alternatives. -/
theorem LowersBranches.exists_yieldsAll {base : Nat} {ps : List Phrase} {tokens : List Token}
    (all : ∀ ts, LowersAll ds g.rules base ps ts → g.YieldsAll ts tokens)
    {alternatives : List (List Phrase)} {lowered : List (List Term)} :
    LowersBranches ds g.rules base alternatives lowered → ps ∈ alternatives →
      ∃ ts ∈ lowered, g.YieldsAll ts tokens
  | .nil, mem => nomatch mem
  | .direct first others, mem => by
    rcases List.mem_cons.1 mem with same | mem
    · exact ⟨_, List.mem_cons_self .., all _ (same ▸ first)⟩
    · obtain ⟨ts, mem, yields⟩ := others.exists_yieldsAll all mem
      exact ⟨ts, List.mem_cons_of_mem _ mem, yields⟩
  | .hoisted first others, mem => by
    rcases List.mem_cons.1 mem with same | mem
    · have yields := first.yields all (List.mem_singleton.2 same)
      refine ⟨_, List.mem_cons_self .., ?_⟩
      rw [← List.append_nil tokens]
      exact .cons ((YieldsTerm.once_iff rfl).2 yields) .nil
    · obtain ⟨ts, mem, yields⟩ := others.exists_yieldsAll all mem
      exact ⟨ts, List.mem_cons_of_mem _ mem, yields⟩

end

/-- An alternative stands for one of those that it was made of, or for a group with only that one. -/
theorem LowersBranches.exists_of_mem {base : Nat} {ts : List Term} :
    ∀ {alternatives : List (List Phrase)} {lowered : List (List Term)},
      LowersBranches ds g.rules base alternatives lowered → ts ∈ lowered →
      ∃ ps ∈ alternatives, LowersAll ds g.rules base ps ts
        ∨ LowersAll ds g.rules base [.group [ps] .one none] ts
  | [], _, .nil, mem => nomatch mem
  | ps :: _, _, .direct first others, mem => by
    rcases List.mem_cons.1 mem with rfl | mem
    · exact ⟨ps, List.mem_cons_self .., .inl first⟩
    · obtain ⟨ps, mem, h⟩ := others.exists_of_mem mem
      exact ⟨ps, List.mem_cons_of_mem _ mem, h⟩
  | ps :: _, _, .hoisted first others, mem => by
    rcases List.mem_cons.1 mem with rfl | mem
    · exact ⟨ps, List.mem_cons_self .., .inr (.cons (.group first) .nil)⟩
    · obtain ⟨ps, mem, h⟩ := others.exists_of_mem mem
      exact ⟨ps, List.mem_cons_of_mem _ mem, h⟩

/-- Declarations with a name are the same. -/
theorem eq_of_name_eq (nodup : (ds.map Declaration.name).Nodup) {d d' : Declaration} (mem : d ∈ ds)
    (mem' : d' ∈ ds) (same : d.name = d'.name) : d = d' :=
  List.inj_on_of_nodup_map nodup mem mem' same

section

variable (lowering : IsLowering ds g.rules)
include lowering

/-- The rule for a declaration with alternatives. -/
theorem exists_lowered {id : Nat} {name : String} {alternatives : List (List Phrase)}
    (found : ds[id]? = some (.rule name alternatives)) :
    ∃ lowered, g.rules[id]? = some ⟨name, .choice lowered⟩
      ∧ LowersBranches ds g.rules ds.length alternatives lowered := by
  obtain ⟨⟨name', body⟩, there, rfl⟩ := lowering.declared id _ found
  obtain ⟨lowered, rfl, lowers⟩ := lowering.bodies id _ _ found there
  exact ⟨lowered, there, lowers⟩

/-- The rule for an alias. -/
theorem exists_another {id : Nat} {name type : String} (found : ds[id]? = some (.aliasOf name type)) :
    g.rules[id]? = some ⟨name, .aliasOf type⟩ := by
  obtain ⟨⟨name', body⟩, there, rfl⟩ := lowering.declared id _ found
  obtain rfl : body = .aliasOf type := lowering.bodies id _ _ found there
  exact there

end

mutual

/-- What a phrase stands for is what the term for it stands for. -/
theorem Once.yields (lowering : IsLowering ds g.rules) (nodup : (ds.map Declaration.name).Nodup) :
    ∀ {p : Phrase} {tokens : List Token}, Once ds p tokens →
      ∀ {t : Term}, Lowers ds g.rules ds.length p t → g.Yields t.symbol tokens
  | _, _, .rule mem among all, _, .rule found named => by
    obtain rfl := eq_of_name_eq nodup (List.mem_of_getElem? found) mem named
    obtain ⟨lowered, there, lowers⟩ := exists_lowered lowering found
    obtain ⟨ts, mem, yields⟩ :=
      lowers.exists_yieldsAll (fun _ lowers => all.yieldsAll lowering nodup lowers) among
    exact .choice there mem yields
  | _, _, .another mem is, _, .rule found named => by
    obtain rfl := eq_of_name_eq nodup (List.mem_of_getElem? found) mem named
    exact .another (exists_another lowering found) is
  | _, _, .terminal is, _, .terminal => .terminal is
  | _, _, .group among all, _, .group lowers =>
    lowers.yields (fun _ lowers => all.yieldsAll lowering nodup lowers) among

theorem Generates.yieldsTerm (lowering : IsLowering ds g.rules) (nodup : (ds.map Declaration.name).Nodup) :
    ∀ {p : Phrase} {tokens : List Token}, Generates ds p tokens →
      ∀ {t : Term}, Lowers ds g.rules ds.length p t → g.YieldsTerm t tokens
  | _, _, .intro admits each, _, lowers =>
    .intro (lowers.multiplicity_eq ▸ admits) fun part mem => (each part mem).yields lowering nodup lowers

theorem GeneratesAll.yieldsAll (lowering : IsLowering ds g.rules) (nodup : (ds.map Declaration.name).Nodup) :
    ∀ {ps : List Phrase} {tokens : List Token}, GeneratesAll ds ps tokens →
      ∀ {ts : List Term}, LowersAll ds g.rules ds.length ps ts → g.YieldsAll ts tokens
  | _, _, .nil, _, .nil => .nil
  | _, _, .cons first others, _, .cons lowers lowers' =>
    .cons (first.yieldsTerm lowering nodup lowers) (others.yieldsAll lowering nodup lowers')

end

/-- What one of some alternatives stands for is what it was made of stands for. -/
theorem exists_generatesAll {alternatives : List (List Phrase)} {lowered : List (List Term)}
    (lowers : LowersBranches ds g.rules ds.length alternatives lowered) {ts : List Term} (mem : ts ∈ lowered)
    {tokens : List Token}
    (all : ∀ ps, LowersAll ds g.rules ds.length ps ts → GeneratesAll ds ps tokens) :
    ∃ ps ∈ alternatives, GeneratesAll ds ps tokens := by
  obtain ⟨ps, mem, lowers | lowers⟩ := lowers.exists_of_mem mem
  · exact ⟨ps, mem, all ps lowers⟩
  · refine ⟨ps, mem, ?_⟩
    cases all _ lowers with
    | cons first others =>
      cases others
      cases first with
      | @intro _ parts admits each =>
        obtain ⟨part, rfl⟩ := List.length_eq_one_iff.1 admits
        cases each part (List.mem_singleton_self _) with
        | group mem all =>
          obtain rfl := List.mem_singleton.1 mem
          simpa using all

mutual

/-- What the term for a phrase stands for is what the phrase stands for. -/
theorem Yields.once (lowering : IsLowering ds g.rules) : ∀ {x : Symbol} {tokens : List Token},
    g.Yields x tokens → ∀ {p : Phrase} {t : Term}, Lowers ds g.rules ds.length p t → t.symbol = x →
      Once ds p tokens
  | _, _, .terminal is, _, _, lowers, same => by
    cases lowers with
    | rule => cases same
    | terminal =>
      cases same
      exact .terminal is
    | group => cases same
  | _, _, .another there is, _, _, lowers, same => by
    cases lowers with
    | @rule _ _ _ _ d found named =>
      cases same
      subst named
      cases d with
      | rule name alternatives =>
        obtain ⟨_, there', -⟩ := exists_lowered lowering found
        cases there.symm.trans there'
      | aliasOf name type =>
        obtain ⟨-, rfl⟩ := alias_inj (there.symm.trans (exists_another lowering found))
        exact .another (List.mem_of_getElem? found) is
    | terminal => cases same
    | group lowers =>
      -- the rule of a group is no other name of a terminal
      cases same
      cases lowers with
      | intro _ there' _ => cases there.symm.trans there'
  | _, _, .choice there mem all, _, _, lowers, same => by
    cases lowers with
    | @rule _ _ _ _ d found named =>
      cases same
      subst named
      cases d with
      | rule name alternatives =>
        obtain ⟨lowered, there', lowers⟩ := exists_lowered lowering found
        obtain ⟨-, rfl⟩ := choice_inj (there.symm.trans there')
        obtain ⟨ps, among, all⟩ :=
          exists_generatesAll lowers mem fun _ lowers => all.generatesAll lowering lowers
        exact .rule (List.mem_of_getElem? found) among all
      | aliasOf name type => cases there.symm.trans (exists_another lowering found)
    | terminal => cases same
    | group lowers =>
      cases same
      cases lowers with
      | intro _ there' lowers =>
        obtain ⟨-, rfl⟩ := choice_inj (there.symm.trans there')
        obtain ⟨ps, among, all⟩ :=
          exists_generatesAll lowers mem fun _ lowers => all.generatesAll lowering lowers
        exact .group among all

theorem YieldsTerm.generates (lowering : IsLowering ds g.rules) : ∀ {t : Term} {tokens : List Token},
    g.YieldsTerm t tokens → ∀ {p : Phrase}, Lowers ds g.rules ds.length p t → Generates ds p tokens
  | _, _, .intro admits each, _, lowers =>
    .intro (lowers.multiplicity_eq ▸ admits) fun part mem => (each part mem).once lowering lowers rfl

theorem YieldsAll.generatesAll (lowering : IsLowering ds g.rules) : ∀ {ts : List Term} {tokens : List Token},
    g.YieldsAll ts tokens → ∀ {ps : List Phrase}, LowersAll ds g.rules ds.length ps ts →
      GeneratesAll ds ps tokens
  | _, _, .nil, _, .nil => .nil
  | _, _, .cons first others, _, .cons lowers lowers' =>
    .cons (first.generates lowering lowers) (others.generatesAll lowering lowers')

end

/-- **Names and numbers** generate the same. -/
theorem once_iff_yields (lowering : IsLowering ds g.rules) (nodup : (ds.map Declaration.name).Nodup) {id : Nat}
    {d : Declaration} (found : ds[id]? = some d) {tokens : List Token} :
    Once ds (.ofRule d.name) tokens ↔ g.Yields (.rule id) tokens :=
  ⟨fun h => h.yields lowering nodup (.rule found rfl), fun h => h.once lowering (.rule found rfl) rfl⟩

/-! ## What is parsed -/

/-- **What a tree has below it** is what its symbol stands for. -/
theorem Derives.yields {x : Symbol} {t : Tree} (h : g.Derives x t) : g.Yields x t.tokens := by
  refine @Derives.induct g (fun x t => g.Yields x t.tokens) (fun _ => True) ?terminal ?another ?choice x t
    h fun _ _ => trivial
  case terminal =>
    intro type label token is _
    rw [Tree.tokens_leaf]
    exact .terminal is
  case another =>
    intro id name type label token there is _
    rw [Tree.tokens_leaf]
    exact .another there is
  case choice =>
    intro id name alternatives index terms label children there among each
    rw [Tree.tokens_node]
    refine .choice there (List.mem_of_getElem? among) ?_
    clear among
    induction each with
    | nil => exact .nil
    | @cons term t terms ts has _ ih =>
      rw [List.flatMap_cons]
      refine .cons ?_ ih
      cases has with
      | once single yields _ => exact (YieldsTerm.once_iff single).2 yields
      | often _ admits each _ =>
        rw [Tree.tokens_node, List.flatMap_def]
        exact .intro (by rwa [List.length_map]) (List.forall_mem_map.2 each)

/-- What is parsed is what the rule that parsing starts from stands for. -/
theorem yields_of_parseTokens (reads : g.readsAll) {tokens : List Token} {t : Tree}
    (parsed : g.parseTokens tokens = .ok t) : g.Yields (.rule g.entry) tokens := by
  rw [← tokens_of_parseTokens reads parsed]
  exact (parseTokens_sound parsed).1.yields

end

end Grammar

end Polyglot
