import Polyglot.Proofs.Tree.Unplaced

/-!
# Parsing does not look at places

The parser asks for the types of the tokens and for nothing else. So tokens that agree are
parsed in the same way, and the trees agree (`Grammar.parseTokens_agrees`): both tokens
and trees are compared without places.
-/

namespace Polyglot.Plain

/-- Whether two attempts find the same, as far as `f` shows it, and get to the same
place. -/
def Alike {α γ : Type} (f : α → γ) (a b : Attempt α) : Prop :=
  a.result.map (Prod.map f id) = b.result.map (Prod.map f id)

namespace Alike

variable {α β γ δ : Type} {f : α → γ} {f' : β → δ} {a b : Attempt α}

theorem cases (h : Alike f a b) :
    a.result = none ∧ b.result = none
      ∨ ∃ x y next, a.result = some (x, next) ∧ b.result = some (y, next) ∧ f x = f y := by
  obtain ⟨_ | ⟨x, next⟩, reach⟩ := a
  · obtain ⟨_ | found, reach'⟩ := b
    · exact .inl ⟨rfl, rfl⟩
    · cases h
  · obtain ⟨_ | ⟨y, next'⟩, reach'⟩ := b
    · cases h
    · obtain ⟨same, rfl⟩ := Prod.mk.inj (Option.some.inj h)
      exact .inr ⟨x, y, next, rfl, rfl, same⟩

theorem none {reach reach' : Nat} : Alike f ⟨none, reach⟩ ⟨none, reach'⟩ := rfl

theorem some {x y : α} {next reach reach' : Nat} (same : f x = f y) :
    Alike f ⟨some (x, next), reach⟩ ⟨some (y, next), reach'⟩ :=
  congrArg (fun z => Option.some (z, next)) same

theorem map {make make' : α → β} (h : Alike f a b)
    (keeps : ∀ x y, f x = f y → f' (make x) = f' (make' y)) :
    Alike f' (a.map make) (b.map make') := by
  rcases h.cases with ⟨eq, eq'⟩ | ⟨x, y, next, eq, eq', same⟩
  · rw [Attempt.map, Attempt.map, eq, eq']
    exact .none
  · rw [Attempt.map, Attempt.map, eq, eq']
    exact .some (keeps x y same)

theorem andThen {make make' : α → Nat → Attempt β} (h : Alike f a b)
    (keeps : ∀ x y next, f x = f y → Alike f' (make x next) (make' y next)) :
    Alike f' (a.andThen make) (b.andThen make') := by
  rcases h.cases with ⟨eq, eq'⟩ | ⟨x, y, next, eq, eq', same⟩
  · rw [Attempt.andThen, Attempt.andThen, eq, eq']
    exact .none
  · rw [Attempt.andThen, Attempt.andThen, eq, eq']
    exact keeps x y next same

end Alike

section

variable {g : Grammar} {tokens tokens' : List Token} {call call' : Nat → Nat → Attempt Tree}
  (same : tokens.map Token.unplaced = tokens'.map Token.unplaced)
include same

theorem length_eq : tokens.length = tokens'.length := by
  rw [← List.length_map Token.unplaced, same, List.length_map]

theorem terminal_alike (name : String) (place : Nat) :
    Alike Token.unplaced (terminal tokens name place) (terminal tokens' name place) := by
  have at_ : tokens[place]?.map Token.unplaced = tokens'[place]?.map Token.unplaced := by
    rw [← List.getElem?_map, same, List.getElem?_map]
  unfold terminal
  split
  · exact .some rfl
  split
  · rw [length_eq same]
    split
    · exact .some rfl
    · exact .none
  · revert at_
    cases tokens[place]? with
    | none =>
      cases tokens'[place]? with
      | none => exact fun _ => rfl
      | some u => nofun
    | some t =>
      cases tokens'[place]? with
      | none => nofun
      | some u =>
        intro at_
        have eq : t.unplaced = u.unplaced := Option.some.inj at_
        have types : t.type = u.type := by rw [← t.type_unplaced, eq, u.type_unplaced]
        by_cases is : u.type = name
        · simp [Option.filter_some, types, is, Alike, eq]
        · simp [Option.filter_some, types, is, Alike]

variable (calls : ∀ id place, Alike Tree.unplaced (call id place) (call' id place))
include calls

theorem symbol_alike (s : Symbol) (place : Nat) :
    Alike Tree.unplaced (symbol tokens call s place) (symbol tokens' call' s place) := by
  cases s with
  | rule id => exact calls id place
  | terminal name =>
    refine (terminal_alike same name place).map fun t u eq => ?_
    have types : t.type = u.type := by rw [← t.type_unplaced, eq, u.type_unplaced]
    simp [Tree.ofToken, types, eq]

omit same calls in
theorem rounds_alike {parse parse' : Nat → Attempt Tree}
    (parses : ∀ place, Alike Tree.unplaced (parse place) (parse' place))
    (multiplicity : Multiplicity) (fuel : Nat) (first : Bool) (place : Nat) :
    Alike (List.map Tree.unplaced) (rounds parse multiplicity fuel first place)
      (rounds parse' multiplicity fuel first place) := by
  induction fuel generalizing first place with
  | zero => exact .some rfl
  | succ fuel ih =>
    have round := parses place
    unfold rounds
    rcases round.cases with ⟨eq, eq'⟩ | ⟨x, y, next, eq, eq', agree⟩
    · simp only [eq, eq']
      exact .some rfl
    · simp only [eq, eq']
      split
      · refine .some ?_
        split
        · rw [List.map_singleton, List.map_singleton, agree]
        · rfl
      split
      · refine .some ?_
        rw [List.map_singleton, List.map_singleton, agree]
      · refine round.andThen fun x y next agree => (ih false next).map fun xs ys agrees => ?_
        rw [List.map_cons, List.map_cons, agree, agrees]

theorem repeated_alike (s : Symbol) (multiplicity : Multiplicity) (place : Nat) :
    Alike (List.map Tree.unplaced) (repeated tokens (symbol tokens call s) multiplicity place)
      (repeated tokens' (symbol tokens' call' s) multiplicity place) := by
  have all := rounds_alike (symbol_alike same calls s) multiplicity (tokens.length + 1) true place
  unfold repeated
  dsimp only
  rw [← length_eq same]
  rcases all.cases with ⟨eq, eq'⟩ | ⟨xs, ys, next, eq, eq', agree⟩
  · rw [eq, eq']
    exact .none
  · have empty : xs.isEmpty = ys.isEmpty := by
      rw [← List.isEmpty_map (f := Tree.unplaced), agree, List.isEmpty_map]
    rw [eq, eq', Option.filter_some, Option.filter_some]
    dsimp only
    rw [empty]
    split
    · exact .some agree
    · exact .none

theorem term_alike (t : Term) (place : Nat) :
    Alike Tree.unplaced (term g tokens call t place) (term g tokens' call' t place) := by
  unfold term
  refine Alike.map (f := Tree.unplaced) ?_ fun x y agree => by
    rw [Tree.unplaced_withLabel, Tree.unplaced_withLabel, agree]
  split
  · exact symbol_alike same calls t.symbol place
  · refine (repeated_alike same calls t.symbol t.multiplicity place).map fun xs ys agree => ?_
    rw [Tree.unplaced_node, Tree.unplaced_node, agree]

theorem sequence_alike (terms : List Term) (place : Nat) :
    Alike (List.map Tree.unplaced) (sequence g tokens call terms place)
      (sequence g tokens' call' terms place) := by
  induction terms generalizing place with
  | nil => exact .some rfl
  | cons t terms ih =>
    refine (term_alike same calls t place).andThen fun x y next agree => ?_
    refine (ih next).map fun xs ys agrees => ?_
    rw [List.map_cons, List.map_cons, agree, agrees]

theorem longest_alike (place index : Nat) (alternatives : List (List Term)) :
    Alike (Prod.map id (List.map Tree.unplaced)) (longest g tokens call place index alternatives)
      (longest g tokens' call' place index alternatives) := by
  induction alternatives generalizing index with
  | nil => exact .none
  | cons terms rest ih =>
    have this : Alike (Prod.map id (List.map Tree.unplaced))
        ((sequence g tokens call terms place).map (index, ·))
        ((sequence g tokens' call' terms place).map (index, ·)) :=
      (sequence_alike same calls terms place).map fun xs ys agree => by
        rw [Prod.map_apply, Prod.map_apply, agree]
    have others := ih (index + 1)
    unfold longest
    rcases this.cases with ⟨eq, eq'⟩ | ⟨x, y, next, eq, eq', agree⟩
    · dsimp only
      rw [eq, eq']
      exact others
    · rcases others.cases with ⟨eq'', eq'''⟩ | ⟨x', y', next', eq'', eq''', agree'⟩
      · dsimp only
        rw [eq, eq', eq'', eq''']
        exact .some agree
      · dsimp only
        rw [eq, eq', eq'', eq''', longer, longer]
        dsimp only
        split
        · exact .some agree'
        · exact .some agree

theorem body_alike (r : Rule) (place : Nat) :
    Alike Tree.unplaced (body g tokens call r place) (body g tokens' call' r place) := by
  unfold body
  split
  · refine (terminal_alike same _ place).map fun t u agree => ?_
    rw [Tree.unplaced_leaf, Tree.unplaced_leaf, agree]
  · refine (longest_alike same calls place 0 _).map ?_
    rintro ⟨index, xs⟩ ⟨index', ys⟩ agree
    obtain ⟨rfl, agrees⟩ := Prod.mk.inj agree
    simp only [Tree.unplaced_node, agrees, id]

end

/-- **Calls of rules** find the same in tokens that are the same without places. -/
theorem rule_alike {g : Grammar} {tokens tokens' : List Token}
    (same : tokens.map Token.unplaced = tokens'.map Token.unplaced) (opened : List Call)
    (id place : Nat) :
    Alike Tree.unplaced (rule g tokens opened id place) (rule g tokens' opened id place) := by
  have known : calls g tokens = calls g tokens' := by rw [calls, calls, length_eq same]
  fun_induction rule g tokens opened id place with
  | case1 opened id place inside less unknown =>
    rw [rule, dif_pos (known ▸ inside), unknown]
    exact .none
  | case2 opened id place inside less r at_ ih =>
    rw [rule, dif_pos (known ▸ inside), at_]
    exact body_alike same ih r place
  | case3 opened id place refused =>
    rw [rule, dif_neg (known ▸ refused)]
    exact .none

end Polyglot.Plain

namespace Polyglot.Grammar

/-- **Tokens that agree** are parsed to trees that agree. -/
theorem parseTokens_agrees {g : Grammar} {tokens tokens' : List Token} {t : Tree}
    (same : tokens.map Token.unplaced = tokens'.map Token.unplaced)
    (parsed : g.parseTokens tokens = .ok t) :
    ∃ u, g.parseTokens tokens' = .ok u ∧ t.unplaced = u.unplaced := by
  rw [parseTokens_eq_parsePlainly, parsePlainly, Plain.verdict] at parsed
  rcases (Plain.rule_alike same [] g.entry 0).cases with ⟨eq, -⟩ | ⟨x, y, next, eq, eq', agree⟩
  · rw [eq] at parsed
    cases parsed
  · rw [eq] at parsed
    refine ⟨y, ?_, ?_⟩
    · rw [parseTokens_eq_parsePlainly, parsePlainly, Plain.verdict, eq', ← Plain.length_eq same]
      dsimp only at parsed ⊢
      split at parsed
      · cases parsed
      · rw [if_neg ‹_›]
    · dsimp only at parsed
      split at parsed
      · cases parsed
      · obtain rfl := Except.ok.inj parsed
        exact agree

end Polyglot.Grammar
