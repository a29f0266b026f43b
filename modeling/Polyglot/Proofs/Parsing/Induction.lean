import Mathlib.Data.List.Forall2
import Polyglot.Proofs.Parsing.Derivation
import Polyglot.Proofs.Tree.Shaking

/-!
# Induction on the trees of a grammar

What holds of the leaves of a grammar, and of an alternative as soon as it holds of what the
terms of the alternative stand for, holds of all its trees (`Grammar.Derives.induct`). Not more is
asked of the tokens than what is known of them all.

This is how one gets from a grammar to what is left of its trees when they are shaken: what stays
of a list of trees is put together from what stays of each (`Shake.exists_shakeList`).
-/

namespace Polyglot

namespace Shake

variable {s : Shake}

/-- What stays of trees, if it is known what stays of each. -/
theorem exists_shakeList {α : Type} {f : α → List Tree} {p : α → Prop} {ts : List Tree}
    (each : ∀ t ∈ ts, ∃ a, s.shakeInner t = f a ∧ p a) :
    ∃ as : List α, s.shakeList ts = as.flatMap f ∧ ∀ a ∈ as, p a := by
  induction ts with
  | nil => exact ⟨[], by rw [shakeList, List.flatMap_nil], List.forall_mem_nil _⟩
  | cons t ts ih =>
    obtain ⟨⟨a, eq, here⟩, others⟩ := List.forall_mem_cons.1 each
    obtain ⟨as, eq', later⟩ := ih others
    exact ⟨a :: as, by rw [shakeList, eq, eq', List.flatMap_cons], List.forall_mem_cons.2 ⟨here, later⟩⟩

end Shake

namespace Grammar

variable {g : Grammar} {p : Symbol → Tree → Prop} {good : Token → Prop}

/-- Whether a tree is one of a term, if it is known what the trees of the symbol are. -/
inductive TermHas (g : Grammar) (p : Symbol → Tree → Prop) : Term → Tree → Prop
  /-- The tree of the symbol, with the label of the term. -/
  | once {term : Term} {t : Tree} :
      term.multiplicity = .one → p term.symbol t → t.label = term.label → TermHas g p term t
  /-- A tree that holds those of a repetition. -/
  | often {term : Term} {items : List Tree} :
      term.multiplicity ≠ .one → term.multiplicity.Admits items.length →
      (∀ t ∈ items, p term.symbol t) → (∀ t ∈ items, t.label = none) →
      TermHas g p term
        (.node (g.symbolName term.symbol ++ term.multiplicity.suffix) term.label none items)

/-- The tree of a term that matches once. -/
theorem TermHas.of_once {term : Term} {t : Tree} (h : g.TermHas p term t)
    (once : term.multiplicity = .one) : p term.symbol t ∧ t.label = term.label := by
  cases h with
  | once _ here label => exact ⟨here, label⟩
  | often often => exact absurd once often

/-- The tree of a term that may match more or less often. -/
theorem TermHas.of_often {term : Term} {t : Tree} (h : g.TermHas p term t)
    (often : term.multiplicity ≠ .one) :
    ∃ items, t = .node (g.symbolName term.symbol ++ term.multiplicity.suffix) term.label none items
      ∧ term.multiplicity.Admits items.length ∧ (∀ t ∈ items, p term.symbol t)
      ∧ ∀ t ∈ items, t.label = none := by
  cases h with
  | once once => exact absurd once often
  | often _ admits each unlabeled => exact ⟨_, rfl, admits, each, unlabeled⟩

/-- Which rule it is that stands at a place. -/
theorem choice_inj {name name' : String} {alternatives alternatives' : List (List Term)}
    (h : some (⟨name, .choice alternatives⟩ : Rule) = some ⟨name', .choice alternatives'⟩) :
    name' = name ∧ alternatives' = alternatives := by
  obtain ⟨rfl, same⟩ := Rule.mk.inj (Option.some.inj h)
  exact ⟨rfl, (RuleBody.choice.inj same).symm⟩

/-- Which alternative it is of a rule that has only one. -/
theorem only_inj {name name' : String} {terms terms' : List Term} {alternatives : List (List Term)}
    {index : Nat} (h : some (⟨name, .choice [terms]⟩ : Rule) = some ⟨name', .choice alternatives⟩)
    (among : alternatives[index]? = some terms') : name' = name ∧ index = 0 ∧ terms' = terms := by
  obtain ⟨rfl, rfl⟩ := choice_inj h
  cases index with
  | zero => exact ⟨rfl, rfl, (Option.some.inj among).symm⟩
  | succ => cases among

/-- Which terminal it is that a rule is another name for. -/
theorem alias_inj {name name' type type' : String}
    (h : some (⟨name, .aliasOf type⟩ : Rule) = some ⟨name', .aliasOf type'⟩) :
    name' = name ∧ type' = type := by
  obtain ⟨rfl, same⟩ := Rule.mk.inj (Option.some.inj h)
  exact ⟨rfl, (RuleBody.aliasOf.inj same).symm⟩

/-- **Induction on a tree** all tokens of which are good. -/
theorem Derives.induct
    (terminal : ∀ {type : String} {label : Option String} {token : Token}, token.type = type →
      good token → p (.terminal type) (.leaf type label none token))
    (another : ∀ {id : Nat} {name type : String} {label : Option String} {token : Token},
      g.rules[id]? = some ⟨name, .aliasOf type⟩ → token.type = type → good token →
      p (.rule id) (.leaf name label (some type) token))
    (choice : ∀ {id : Nat} {name : String} {alternatives : List (List Term)} {index : Nat}
      {terms : List Term} {label : Option String} {children : List Tree},
      g.rules[id]? = some ⟨name, .choice alternatives⟩ → alternatives[index]? = some terms →
      List.Forall₂ (g.TermHas p) terms children →
      p (.rule id) (.node name label (some index) children))
    {s : Symbol} {t : Tree} (h : g.Derives s t) (known : ∀ token ∈ t.tokens, good token) : p s t := by
  refine @Derives.rec g (fun s t _ => (∀ token ∈ t.tokens, good token) → p s t)
    (fun term t _ => (∀ token ∈ t.tokens, good token) → g.TermHas p term t)
    (fun terms ts _ => (∀ token ∈ ts.flatMap Tree.tokens, good token) →
      List.Forall₂ (g.TermHas p) terms ts) ?_ ?_ ?_ ?_ ?_ ?_ ?_ s t h known
  case refine_1 =>
    intro type label token is known
    exact terminal is (known token (by simp))
  case refine_2 =>
    rintro id ⟨name, body⟩ type label token found rfl is known
    exact another found is (known token (by simp))
  case refine_3 =>
    rintro id ⟨name, body⟩ alternatives index terms label children found rfl among _ ih known
    exact choice found among (ih (by simpa using known))
  case refine_4 =>
    intro term t once _ label ih known
    exact .once once (ih known) label
  case refine_5 =>
    intro term items often admits _ unlabeled ih known
    refine .often often admits (fun t mem => ih t mem fun token inside => known token ?_) unlabeled
    rw [Tree.tokens_node]
    exact List.mem_flatMap.2 ⟨t, mem, inside⟩
  case refine_6 =>
    intro _
    exact .nil
  case refine_7 =>
    intro term t terms ts _ _ ih ih' known
    rw [List.flatMap_cons] at known
    obtain ⟨here, later⟩ := List.forall_mem_append.1 known
    exact .cons (ih here) (ih' later)

end Grammar

end Polyglot
