import Polyglot.Proofs.Parsing.Derivation
import Mathlib.Data.List.Chain

/-!
# Tokens that never stand next to each other

In the sentences of a grammar a token of some types on the `left` may never come right
before one of some types on the `right`. Whether it can is decided from what each rule may
have at its edges: whether it may match nothing, may start with a token of the right, and
may end with one of the left. These `Fringes` are given, and checked rule by rule
(`Fringes.check`); then they hold of all trees of the grammar (`Grammar.Derives.covers`).
-/

namespace Polyglot

/-- What there may be at the edges of a list of tokens. -/
structure Fringe where
  /-- Whether there may be no tokens. -/
  empty : Bool
  /-- Whether the first token may be of the right. -/
  starts : Bool
  /-- Whether the last token may be of the left. -/
  stops : Bool

/-- Types of tokens, and what there may be at the edges of rules. -/
structure Fringes where
  /-- The types of the left. -/
  left : List String
  /-- The types of the right. -/
  right : List String
  /-- The rules that may match nothing. -/
  empty : List Nat
  /-- The rules that may start with a token of the right. -/
  starts : List Nat
  /-- The rules that may end with a token of the left. -/
  stops : List Nat

namespace Fringe

/-- The edges of tokens followed by others. -/
def andThen (a b : Fringe) : Fringe :=
  ⟨a.empty && b.empty, a.starts || a.empty && b.starts, b.stops || b.empty && a.stops⟩

/-- Whether tokens may be followed by others. -/
def apart (a b : Fringe) : Bool := !(a.stops && b.starts)

/-- Whether one fringe allows for no more than another. -/
def within (a b : Fringe) : Bool :=
  (!a.empty || b.empty) && (!a.starts || b.starts) && (!a.stops || b.stops)

end Fringe

namespace Fringes

variable (e : Fringes)

/-- The edges of one token, which is none at all if nothing is read for it. -/
def ofType (type : String) : Fringe :=
  if isReserved type then ⟨true, false, false⟩
  else ⟨false, e.right.contains type, e.left.contains type⟩

/-- The edges of a rule. -/
def ofRule (id : Nat) : Fringe := ⟨e.empty.contains id, e.starts.contains id, e.stops.contains id⟩

/-- The edges of a symbol. -/
def ofSymbol : Symbol → Fringe
  | .rule id => e.ofRule id
  | .terminal type => e.ofType type

/-- The edges of a term. -/
def ofTerm (t : Term) : Fringe :=
  let fringe := e.ofSymbol t.symbol
  if t.multiplicity = .optional ∨ t.multiplicity = .star then { fringe with empty := true } else fringe

/-- The edges of the terms of an alternative. -/
def ofTerms : List Term → Fringe
  | [] => ⟨true, false, false⟩
  | t :: terms => (e.ofTerm t).andThen (ofTerms terms)

/-- Whether a term may be followed by itself, if it may be repeated. -/
def checkTerm (t : Term) : Bool :=
  t.multiplicity = .one || t.multiplicity = .optional
    || (e.ofSymbol t.symbol).apart (e.ofSymbol t.symbol)

/-- Whether every term of an alternative may be followed by the next ones. -/
def checkTerms : List Term → Bool
  | [] => true
  | t :: terms => e.checkTerm t && (e.ofTerm t).apart (e.ofTerms terms) && checkTerms terms

/-- Whether the edges of a rule are right, and no token of the right comes after one of the
left. -/
def checkRule (r : Rule) (id : Nat) : Bool :=
  match r.body with
  | .aliasOf type => (e.ofType type).within (e.ofRule id)
  | .choice alternatives => alternatives.all fun terms =>
    e.checkTerms terms && (e.ofTerms terms).within (e.ofRule id)

/-- Whether this is so for all rules of a grammar. -/
def check (g : Grammar) : Bool := g.rules.toList.zipIdx.all fun (r, id) => e.checkRule r id

/-- Whether tokens of these types have the edges that there may be, and none of the right
comes right after one of the left. -/
structure Covers (fringe : Fringe) (types : List String) : Prop where
  /-- If there are no tokens, there may be none. -/
  empty : types = [] → fringe.empty
  /-- If the first is of the right, it may be. -/
  starts : ∀ type ∈ types.head?, type ∈ e.right → fringe.starts
  /-- If the last is of the left, it may be. -/
  stops : ∀ type ∈ types.getLast?, type ∈ e.left → fringe.stops
  /-- No token of the right comes right after one of the left. -/
  chain : types.IsChain fun type next => ¬ (type ∈ e.left ∧ next ∈ e.right)

namespace Covers

variable {e} {a b : Fringe} {types more : List String}

theorem within (h : e.Covers a types) (le : a.within b) : e.Covers b types := by
  simp only [Fringe.within, Bool.and_eq_true, Bool.or_eq_true, Bool.not_eq_true'] at le
  obtain ⟨⟨empty, starts⟩, stops⟩ := le
  refine ⟨fun eq => ?_, fun type first mem => ?_, fun type last mem => ?_, h.chain⟩
  · exact empty.resolve_left (by simp [h.empty eq])
  · exact starts.resolve_left (by simp [h.starts type first mem])
  · exact stops.resolve_left (by simp [h.stops type last mem])

theorem none : e.Covers ⟨true, false, false⟩ [] := ⟨fun _ => rfl, nofun, nofun, .nil⟩

theorem one (type : String) : e.Covers (e.ofType type) ([type].filter fun t => !isReserved t) := by
  unfold ofType
  cases reserved : isReserved type with
  | true => simpa [reserved] using none
  | false =>
    rw [List.filter_cons_of_pos (by simp [reserved])]
    refine ⟨nofun, ?_, ?_, .singleton _⟩
    · rintro _ ⟨⟩ mem
      exact List.contains_iff_mem.2 mem
    · rintro _ ⟨⟩ mem
      exact List.contains_iff_mem.2 mem

theorem append (h : e.Covers a types) (h' : e.Covers b more) (apart : a.apart b) :
    e.Covers (a.andThen b) (types ++ more) := by
  refine ⟨fun nil => ?_, fun type first mem => ?_, fun type last mem => ?_, ?_⟩
  · obtain ⟨nil, nil'⟩ := List.append_eq_nil_iff.1 nil
    simp [Fringe.andThen, h.empty nil, h'.empty nil']
  · rw [List.head?_append] at first
    cases types with
    | nil => simp [Fringe.andThen, h.empty rfl, h'.starts type first mem]
    | cons other types => simp [Fringe.andThen, h.starts type first mem]
  · rw [List.getLast?_append] at last
    cases found : more.getLast? with
    | none =>
      rw [found] at last
      simp [Fringe.andThen, h'.empty (List.getLast?_eq_none_iff.1 found), h.stops type last mem]
    | some other =>
      rw [found] at last
      obtain rfl := Option.some.inj last
      simp [Fringe.andThen, h'.stops other found mem]
  · refine h.chain.append h'.chain fun type last next first ⟨mem, mem'⟩ => ?_
    simp [Fringe.apart, h.stops type last mem, h'.starts next first mem'] at apart

/-- Tokens that are repeated, as they may be followed by themselves. -/
theorem repeated {α : Type} {f : α → List String} {items : List α} (apart : a.apart a)
    (each : ∀ x ∈ items, e.Covers a (f x)) :
    e.Covers { a with empty := true } (items.flatMap f) := by
  induction items with
  | nil => exact ⟨fun _ => rfl, nofun, nofun, .nil⟩
  | cons x items ih =>
    obtain ⟨first, others⟩ := List.forall_mem_cons.1 each
    refine (first.append (ih others) apart).within ?_
    obtain ⟨empty, starts, stops⟩ := a
    cases empty <;> cases starts <;> cases stops <;> rfl

/-- Tokens that are repeated at least once. -/
theorem repeatedOnce {α : Type} {f : α → List String} {x : α} {items : List α}
    (apart : a.apart a) (each : ∀ y ∈ x :: items, e.Covers a (f y)) :
    e.Covers a ((x :: items).flatMap f) := by
  obtain ⟨first, others⟩ := List.forall_mem_cons.1 each
  refine (first.append (repeated apart others) apart).within ?_
  obtain ⟨empty, starts, stops⟩ := a
  cases empty <;> cases starts <;> cases stops <;> rfl

end Covers

end Fringes

namespace Grammar

variable {g : Grammar} {e : Fringes}

/-- The types of the tokens that something is read for. -/
def typesRead (tokens : List Token) : List String :=
  (tokens.map Token.type).filter fun type => !isReserved type

/-- The types of the tokens of a tree. -/
def types (t : Tree) : List String := typesRead t.tokens

theorem types_node (name : String) (label : Option String) (choice : Option Nat)
    (children : List Tree) : types (.node name label choice children) = children.flatMap types := by
  rw [types, typesRead, Tree.tokens_node, List.map_flatMap, List.filter_flatMap]
  rfl

theorem types_leaf (name : String) (label terminal : Option String) (token : Token) :
    types (.leaf name label terminal token) = [token.type].filter fun type => !isReserved type := by
  rw [types, typesRead, Tree.tokens_leaf, List.map_singleton]

/-- **The edges that were checked** are those of all trees of the grammar, and in no tree a
token of the right comes right after one of the left. -/
theorem Derives.covers (checked : e.check g) {s : Symbol} {t : Tree} (h : g.Derives s t) :
    e.Covers (e.ofSymbol s) (types t) := by
  have rule {id : Nat} {r : Rule} (at_ : g.rules[id]? = some r) : e.checkRule r id :=
    List.all_eq_true.1 checked (r, id) (List.mem_zipIdx_iff_getElem?.2 (by simpa using at_))
  refine @Derives.rec g (fun s t _ => e.Covers (e.ofSymbol s) (types t))
    (fun term t _ => e.checkTerm term → e.Covers (e.ofTerm term) (types t))
    (fun terms ts _ => e.checkTerms terms → e.Covers (e.ofTerms terms) (ts.flatMap types))
    ?terminal ?another ?choice ?once ?often ?nil ?cons s t h
  case terminal =>
    rintro type label token rfl
    rw [types_leaf]
    exact .one token.type
  case another =>
    rintro id r type label token at_ body rfl
    have checked := rule at_
    rw [Fringes.checkRule, body] at checked
    rw [types_leaf]
    exact (Fringes.Covers.one token.type).within checked
  case choice =>
    intro id r alternatives index terms label children at_ body among _ ih
    have checked := rule at_
    rw [Fringes.checkRule, body] at checked
    have here := List.all_eq_true.1 checked terms (List.mem_of_getElem? among)
    obtain ⟨checked, within⟩ := Bool.and_eq_true_iff.1 here
    rw [types_node]
    exact (ih checked).within within
  case once =>
    intro term t once _ _ ih _
    simpa [Fringes.ofTerm, once] using ih
  case often =>
    intro term items often admits _ _ ih checked
    rw [types_node]
    simp only [Fringes.checkTerm, Bool.or_eq_true] at checked
    cases kind : term.multiplicity with
    | one => exact absurd kind often
    | optional =>
      rw [kind] at admits
      rw [Fringes.ofTerm, if_pos (.inl kind)]
      cases items with
      | nil => exact ⟨fun _ => rfl, nofun, nofun, .nil⟩
      | cons t items =>
        -- there is one item at most
        obtain rfl := List.eq_nil_of_length_eq_zero (Nat.le_zero.1 (Nat.le_of_succ_le_succ admits))
        have one := ih t (List.mem_singleton.2 rfl)
        rw [List.flatMap_singleton]
        exact ⟨fun _ => rfl, one.starts, one.stops, one.chain⟩
    | star =>
      rw [Fringes.ofTerm, if_pos (.inr kind)]
      exact .repeated (checked.resolve_left (by simp [kind])) ih
    | plus =>
      rw [kind] at admits
      rw [Fringes.ofTerm, if_neg (by simp [kind])]
      obtain ⟨t, items, rfl⟩ := List.exists_cons_of_ne_nil (List.length_pos_iff.1 admits)
      exact .repeatedOnce (checked.resolve_left (by simp [kind])) ih
  case nil => exact fun _ => .none
  case cons =>
    intro term t terms ts _ _ ih ih' checked
    obtain ⟨checked, rest⟩ := Bool.and_eq_true_iff.1 checked
    obtain ⟨checked, apart⟩ := Bool.and_eq_true_iff.1 checked
    exact (ih checked).append (ih' rest) apart

/-- In what a grammar parses, no token of the right comes right after one of the left. -/
theorem isChain_of_parseTokens (checked : e.check g) {tokens : List Token} {t : Tree}
    (parsed : g.parseTokens tokens = .ok t) :
    tokens.IsChain fun t u => ¬ (t.type ∈ e.left ∧ u.type ∈ e.right) := by
  obtain ⟨derived, -, same, -⟩ := parseTokens_sound parsed
  have types_eq : types t = tokens.map Token.type := by
    rw [types, typesRead, List.filter_map, ← same]
    rfl
  have chain := (derived.covers checked).chain
  rw [types_eq] at chain
  exact List.isChain_map .. |>.1 chain

end Grammar

end Polyglot
