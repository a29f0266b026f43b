import Polyglot.Proofs.Parsing.Memo

/-!
# Trees of a grammar

What the parser gives is a tree of the grammar (`Grammar.Derives`): every inner tree
stands for an alternative of its rule, with one tree for each term, and every leaf for a
terminal. And the tree has the tokens that were parsed, in their order, up to tokens
without a text (`Grammar.parseTokens_sound`).

Which of several trees with the same tokens it is, and that there is one whenever there
could be one, is not said here.
-/

namespace Polyglot

/-- Whether a term that matches a number of times may match that often. -/
def Multiplicity.Admits : Multiplicity → Nat → Prop
  | one, count => count = 1
  | optional, count => count ≤ 1
  | star, _ => True
  | plus, count => 1 ≤ count

namespace Grammar

variable (g : Grammar)

mutual

/-- Whether a tree is one of a symbol, whatever its label. -/
inductive Derives : Symbol → Tree → Prop
  /-- A token with the type that a terminal asks for. -/
  | terminal {type : String} {label : Option String} {token : Token} :
      token.type = type → Derives (.terminal type) (.leaf type label none token)
  /-- A token, by another name. -/
  | another {id : Nat} {r : Rule} {type : String} {label : Option String} {token : Token} :
      g.rules[id]? = some r → r.body = .aliasOf type → token.type = type →
      Derives (.rule id) (.leaf r.name label (some type) token)
  /-- An alternative. -/
  | choice {id : Nat} {r : Rule} {alternatives : List (List Term)} {index : Nat}
      {terms : List Term} {label : Option String} {children : List Tree} :
      g.rules[id]? = some r → r.body = .choice alternatives → alternatives[index]? = some terms →
      DerivesAll terms children → Derives (.rule id) (.node r.name label (some index) children)

/-- Whether a tree is one of a term. -/
inductive DerivesTerm : Term → Tree → Prop
  /-- The tree of the symbol, with the label of the term. -/
  | once {t : Term} {tree : Tree} :
      t.multiplicity = .one → Derives t.symbol tree → tree.label = t.label → DerivesTerm t tree
  /-- A tree that holds those of a repetition. -/
  | often {t : Term} {items : List Tree} :
      t.multiplicity ≠ .one → t.multiplicity.Admits items.length →
      (∀ tree ∈ items, Derives t.symbol tree) → (∀ tree ∈ items, tree.label = none) →
      DerivesTerm t
        (.node (g.symbolName t.symbol ++ t.multiplicity.suffix) t.label none items)

/-- Whether trees are those of terms, one for each. -/
inductive DerivesAll : List Term → List Tree → Prop
  /-- There are none. -/
  | nil : DerivesAll [] []
  /-- One after the other. -/
  | cons {t : Term} {tree : Tree} {terms : List Term} {trees : List Tree} :
      DerivesTerm t tree → DerivesAll terms trees → DerivesAll (t :: terms) (tree :: trees)

end

end Grammar

/-- The tokens that a parser reads: those of the terminals that are not reserved. -/
def readTokens (tokens : List Token) : List Token := tokens.filter fun t => !isReserved t.type

/-- Whether the tokens of a tree are those that were read for it, in their order, and between
them tokens of reserved terminals that have no text. -/
def Covers (tokens taken : List Token) : Prop :=
  readTokens tokens = taken ∧ ∀ t ∈ tokens, isReserved t.type → t.isEmpty

namespace Covers

theorem nil : Covers [] [] := ⟨rfl, nofun⟩

theorem append {tokens taken more taken' : List Token} (h : Covers tokens taken)
    (h' : Covers more taken') : Covers (tokens ++ more) (taken ++ taken') := by
  refine ⟨?_, List.forall_mem_append.2 ⟨h.2, h'.2⟩⟩
  rw [readTokens, List.filter_append]
  exact congr (congrArg _ h.1) h'.1

/-- A token that was read. -/
theorem read {t : Token} (read : isReserved t.type = false) : Covers [t] [t] := by
  refine ⟨?_, fun u mem reserved => ?_⟩
  · rw [readTokens, List.filter_cons_of_pos (by rw [read]; rfl)]
    rfl
  · rw [List.mem_singleton.1 mem, read] at reserved
    cases reserved

/-- A token that stands for no text. -/
theorem empty {type : String} (reserved : isReserved type) (p : Source.Position) :
    Covers [.empty type p] [] := by
  refine ⟨?_, fun u mem _ => ?_⟩
  · rw [readTokens, List.filter_cons_of_neg (by rw [Token.empty, reserved]; decide)]
    rfl
  · rw [List.mem_singleton.1 mem]
    rfl

end Covers

/-- The text of a tree with one token is that of the token. -/
theorem Tree.text_of_tokens {t : Tree} {token : Token} (only : t.tokens = [token])
    (solid : token.isEmpty = false) : t.text = token.lexeme := by
  simp [Tree.text, Tree.solidTokens, only, solid]

namespace Grammar

variable {g : Grammar}

/-- A label makes no difference to what a tree is one of. -/
theorem Derives.withLabel {s : Symbol} {t : Tree} (label : Option String) (h : g.Derives s t) :
    g.Derives s (t.withLabel label) := by
  cases h with
  | terminal type => exact .terminal type
  | another found body type => exact .another found body type
  | choice found body at_ children => exact .choice found body at_ children

/-! ## What a tree looks like -/

/-- The tree of a terminal is a leaf. -/
theorem Derives.of_terminal {type : String} {t : Tree} (h : g.Derives (.terminal type) t) :
    ∃ token, t = .leaf type t.label none token ∧ token.type = type := by
  cases h with
  | terminal type => exact ⟨_, rfl, type⟩

/-- The tree of another name for a terminal is a leaf. -/
theorem Derives.of_alias {id : Nat} {name type : String} {t : Tree}
    (h : g.Derives (.rule id) t) (at_ : g.rules[id]? = some ⟨name, .aliasOf type⟩) :
    ∃ token, t = .leaf name t.label (some type) token ∧ token.type = type := by
  cases h with
  | another found body type =>
    obtain rfl := Option.some.inj (found.symm.trans at_)
    obtain rfl := RuleBody.aliasOf.inj body
    exact ⟨_, rfl, type⟩
  | choice found body _ _ =>
    obtain rfl := Option.some.inj (found.symm.trans at_)
    cases body

/-- The tree of a rule stands for one of its alternatives. -/
theorem Derives.of_choice {id : Nat} {name : String} {alternatives : List (List Term)} {t : Tree}
    (h : g.Derives (.rule id) t) (at_ : g.rules[id]? = some ⟨name, .choice alternatives⟩) :
    ∃ index terms children, t = .node name t.label (some index) children
      ∧ alternatives[index]? = some terms ∧ g.DerivesAll terms children := by
  cases h with
  | another found body _ =>
    obtain rfl := Option.some.inj (found.symm.trans at_)
    cases body
  | choice found body among children =>
    obtain rfl := Option.some.inj (found.symm.trans at_)
    obtain rfl := RuleBody.choice.inj body
    exact ⟨_, _, _, rfl, among, children⟩

/-- The tree of a rule with one alternative. -/
theorem Derives.of_only {id : Nat} {name : String} {terms : List Term} {t : Tree}
    (h : g.Derives (.rule id) t) (at_ : g.rules[id]? = some ⟨name, .choice [terms]⟩) :
    ∃ children, t = .node name t.label (some 0) children ∧ g.DerivesAll terms children := by
  obtain ⟨index, terms', children, eq, among, derived⟩ := h.of_choice at_
  cases index with
  | zero =>
    obtain rfl := Option.some.inj among
    exact ⟨children, eq, derived⟩
  | succ index => cases among

theorem DerivesAll.of_nil {trees : List Tree} (h : g.DerivesAll [] trees) : trees = [] := by
  cases h
  rfl

theorem DerivesAll.of_cons {t : Term} {ts : List Term} {trees : List Tree}
    (h : g.DerivesAll (t :: ts) trees) :
    ∃ first others, trees = first :: others ∧ g.DerivesTerm t first ∧ g.DerivesAll ts others := by
  cases h with
  | cons first others => exact ⟨_, _, rfl, first, others⟩

/-- The tree of a term that matches once. -/
theorem DerivesTerm.of_once {t : Term} {tree : Tree} (h : g.DerivesTerm t tree)
    (once : t.multiplicity = .one) : g.Derives t.symbol tree ∧ tree.label = t.label := by
  cases h with
  | once _ derived label => exact ⟨derived, label⟩
  | often often => exact absurd once often

/-- The tree of a term that may match more or less often. -/
theorem DerivesTerm.of_often {t : Term} {tree : Tree} (h : g.DerivesTerm t tree)
    (often : t.multiplicity ≠ .one) :
    ∃ items, tree = .node (g.symbolName t.symbol ++ t.multiplicity.suffix) t.label none items
      ∧ t.multiplicity.Admits items.length ∧ (∀ x ∈ items, g.Derives t.symbol x)
      ∧ ∀ x ∈ items, x.label = none := by
  cases h with
  | once once => exact absurd once often
  | often _ admits derived unlabeled => exact ⟨_, rfl, admits, derived, unlabeled⟩

end Grammar

namespace Plain

/-- Whether what is found at a place is as it should be, given the tokens that it takes. -/
def Finds {α : Type} (tokens : List Token) (place : Nat) (good : α → List Token → Prop)
    (a : Attempt α) : Prop :=
  ∀ x next, a.result = some (x, next) →
    ∃ taken, tokens.drop place = taken ++ tokens.drop next ∧ good x taken

namespace Finds

variable {α β : Type} {tokens : List Token} {place : Nat} {good : α → List Token → Prop}
  {good' : β → List Token → Prop} {a : Attempt α}

theorem map {f : α → β} (h : Finds tokens place good a)
    (keeps : ∀ x taken, good x taken → good' (f x) taken) :
    Finds tokens place good' (a.map f) := by
  intro y next eq
  rw [Attempt.result_map, Option.map_eq_some_iff] at eq
  obtain ⟨⟨x, next'⟩, found, eq⟩ := eq
  obtain ⟨rfl, rfl⟩ := Prod.mk.inj eq
  obtain ⟨taken, split, isGood⟩ := h x next' found
  exact ⟨taken, split, keeps x taken isGood⟩

theorem andThen {f : α → Nat → Attempt β} (h : Finds tokens place good a)
    (next : ∀ x taken place', good x taken →
      Finds tokens place' (fun y more => good' y (taken ++ more)) (f x place')) :
    Finds tokens place good' (a.andThen f) := by
  intro y last eq
  unfold Attempt.andThen at eq
  split at eq
  · cases eq
  · rename_i x place' found
    obtain ⟨taken, split, isGood⟩ := h x place' found
    obtain ⟨more, split', isGood'⟩ := next x taken place' isGood y last eq
    exact ⟨taken ++ more, by rw [split, split', List.append_assoc], isGood'⟩

/-- What is found without taking anything. -/
theorem here {x : α} {reach : Nat} (isGood : good x []) :
    Finds tokens place good ⟨some (x, place), reach⟩ := by
  intro y next eq
  obtain ⟨rfl, rfl⟩ := Prod.mk.inj (Option.some.inj eq)
  exact ⟨[], rfl, isGood⟩

end Finds

/-- Whether a tree is one of a symbol, has no label, and has the tokens. -/
def IsTree (g : Grammar) (s : Symbol) (t : Tree) (taken : List Token) : Prop :=
  g.Derives s t ∧ t.label = none ∧ Covers t.tokens taken

/-- Whether trees are those of rounds of a symbol, and have the tokens. -/
def AreRounds (g : Grammar) (s : Symbol) (multiplicity : Multiplicity) (ts : List Tree)
    (taken : List Token) : Prop :=
  (∀ t ∈ ts, g.Derives s t) ∧ (∀ t ∈ ts, t.label = none)
    ∧ (multiplicity = .optional → ts.length ≤ 1) ∧ Covers (ts.flatMap Tree.tokens) taken

section

variable {g : Grammar} {tokens : List Token} {call : Nat → Nat → Attempt Tree}

theorem terminal_finds (type : String) (place : Nat) :
    Finds tokens place (fun t taken => t.type = type ∧ Covers [t] taken)
      (terminal tokens type place) := by
  unfold terminal
  split
  · rename_i empty
    subst empty
    exact .here ⟨rfl, .empty (by decide) _⟩
  split
  · rename_i ending
    subst ending
    split
    · exact .here ⟨rfl, .empty (by decide) _⟩
    · nofun
  · rename_i notEmpty notEnd
    intro t next eq
    obtain ⟨t', found, eq⟩ := Option.map_eq_some_iff.1 eq
    obtain ⟨rfl, rfl⟩ := Prod.mk.inj eq
    obtain ⟨found, type'⟩ := Option.filter_eq_some_iff.1 found
    obtain ⟨lt, rfl⟩ := List.getElem?_eq_some_iff.1 found
    obtain rfl := beq_iff_eq.1 type'
    -- the reserved terminals have been dealt with, and so read no token
    have known : isReserved tokens[place].type = false := by
      rw [isReserved, Bool.or_eq_false_iff]
      exact ⟨beq_false_of_ne notEmpty, beq_false_of_ne notEnd⟩
    exact ⟨[tokens[place]], List.drop_eq_getElem_cons lt, rfl, .read known⟩

variable (calls : ∀ id place, Finds tokens place (IsTree g (.rule id)) (call id place))
include calls

theorem symbol_finds (s : Symbol) (place : Nat) :
    Finds tokens place (IsTree g s) (symbol tokens call s place) := by
  cases s with
  | rule id => exact calls id place
  | terminal type =>
    refine (terminal_finds type place).map fun t taken ⟨same, eq⟩ => ?_
    subst same
    exact ⟨.terminal rfl, rfl, by rwa [Tree.ofToken, Tree.tokens_leaf]⟩

theorem rounds_finds (s : Symbol) (multiplicity : Multiplicity) (fuel : Nat) (first : Bool)
    (place : Nat) :
    Finds tokens place (AreRounds g s multiplicity)
      (rounds (symbol tokens call s) multiplicity fuel first place) := by
  have nothing : AreRounds g s multiplicity [] [] := ⟨nofun, nofun, by simp, .nil⟩
  have one {t : Tree} {taken : List Token} (h : IsTree g s t taken) :
      AreRounds g s multiplicity [t] taken :=
    ⟨by simpa using h.1, by simpa using h.2.1, by simp, by simpa using h.2.2⟩
  induction fuel generalizing first place with
  | zero => exact .here nothing
  | succ fuel ih =>
    have round := symbol_finds calls s place
    unfold rounds
    dsimp only
    split
    · exact .here nothing
    · rename_i t next found
      obtain ⟨taken, cut, isTree⟩ := round t next found
      split
      · rename_i stands
        intro ts last eq
        obtain ⟨rfl, rfl⟩ := Prod.mk.inj (Option.some.inj eq)
        -- a round that does not go on has taken no token
        obtain rfl : taken = [] := by
          have lengths := congrArg List.length cut
          rw [List.length_append, List.length_drop, List.length_drop] at lengths
          exact List.eq_nil_of_length_eq_zero (by omega)
        refine ⟨[], cut, ?_⟩
        split
        · exact one isTree
        · exact nothing
      split
      · intro ts last eq
        obtain ⟨rfl, rfl⟩ := Prod.mk.inj (Option.some.inj eq)
        exact ⟨taken, cut, one isTree⟩
      · rename_i several
        refine round.andThen fun t taken place' isTree => (ih false place').map ?_
        rintro ts more ⟨derived, unlabeled, -, same⟩
        refine ⟨List.forall_mem_cons.2 ⟨isTree.1, derived⟩,
          List.forall_mem_cons.2 ⟨isTree.2.1, unlabeled⟩, fun is => absurd is several, ?_⟩
        exact isTree.2.2.append same

theorem repeated_finds (s : Symbol) (multiplicity : Multiplicity) (place : Nat) :
    Finds tokens place
      (fun ts taken => AreRounds g s multiplicity ts taken ∧ (multiplicity = .plus → ts ≠ []))
      (repeated tokens (symbol tokens call s) multiplicity place) := by
  intro ts next eq
  obtain ⟨found, enough⟩ := Option.filter_eq_some_iff.1 eq
  obtain ⟨taken, cut, rounds⟩ := rounds_finds calls s multiplicity _ _ place ts next found
  refine ⟨taken, cut, rounds, ?_⟩
  rintro rfl rfl
  simp at enough

theorem term_finds (t : Term) (place : Nat) :
    Finds tokens place
      (fun tree taken => g.DerivesTerm t tree ∧ Covers tree.tokens taken)
      (term g tokens call t place) := by
  unfold term
  dsimp only
  split
  · rename_i once
    refine (symbol_finds calls t.symbol place).map fun tree taken ⟨derived, _, same⟩ => ?_
    exact ⟨.once once (derived.withLabel _) (Tree.label_withLabel ..), by
      rwa [Tree.tokens_withLabel]⟩
  · rename_i often
    have held : Finds tokens place (fun (tree : Tree) taken =>
        g.DerivesTerm t (tree.withLabel t.label) ∧ Covers tree.tokens taken)
        ((repeated tokens (symbol tokens call t.symbol) t.multiplicity place).map
          (Tree.node (g.symbolName t.symbol ++ t.multiplicity.suffix) none none)) := by
      refine (repeated_finds calls t.symbol t.multiplicity place).map ?_
      rintro ts taken ⟨⟨derived, unlabeled, few, same⟩, enough⟩
      refine ⟨.often often ?_ derived unlabeled, by rwa [Tree.tokens_node]⟩
      cases kind : t.multiplicity with
      | one => exact absurd kind often
      | optional => exact few kind
      | star => trivial
      | plus => exact List.length_pos_iff.2 (enough kind)
    exact held.map fun tree taken ⟨derived, same⟩ =>
      ⟨derived, by rwa [Tree.tokens_withLabel]⟩

theorem sequence_finds (terms : List Term) (place : Nat) :
    Finds tokens place
      (fun trees taken => g.DerivesAll terms trees ∧ Covers (trees.flatMap Tree.tokens) taken)
      (sequence g tokens call terms place) := by
  induction terms generalizing place with
  | nil => exact .here ⟨.nil, .nil⟩
  | cons t terms ih =>
    refine (term_finds calls t place).andThen fun tree taken place' ⟨derived, same⟩ => ?_
    refine (ih place').map fun trees more ⟨derived', same'⟩ => ?_
    exact ⟨.cons derived derived', same.append same'⟩

omit calls in
/-- The longer one of two is one of the two. -/
theorem longer_eq_some {earlier later : Option ((Nat × List Tree) × Nat)}
    {x : (Nat × List Tree) × Nat} (eq : longer earlier later = some x) :
    earlier = some x ∨ later = some x := by
  unfold longer at eq
  split at eq
  · exact .inr eq
  · exact .inl eq
  · split at eq
    · exact .inr eq
    · exact .inl eq

theorem longest_finds (place index : Nat) (alternatives : List (List Term)) :
    Finds tokens place
      (fun found taken => ∃ terms, index ≤ found.1 ∧ alternatives[found.1 - index]? = some terms
        ∧ g.DerivesAll terms found.2 ∧ Covers (found.2.flatMap Tree.tokens) taken)
      (longest g tokens call place index alternatives) := by
  induction alternatives generalizing index with
  | nil => nofun
  | cons terms rest ih =>
    rintro ⟨number, trees⟩ next eq
    rcases longer_eq_some eq with found | found
    · have first : Finds tokens place (fun found taken =>
          ∃ terms', index ≤ found.1 ∧ (terms :: rest)[found.1 - index]? = some terms'
            ∧ g.DerivesAll terms' found.2
            ∧ Covers (found.2.flatMap Tree.tokens) taken)
          ((sequence g tokens call terms place).map (index, ·)) :=
        (sequence_finds calls terms place).map fun trees taken ⟨derived, same⟩ =>
          ⟨terms, Nat.le_refl _, by simp, derived, same⟩
      exact first _ next found
    · obtain ⟨taken, cut, terms', le, at_, good⟩ := ih (index + 1) _ next found
      dsimp only at le at_
      refine ⟨taken, cut, terms', by dsimp only; omega, ?_, good⟩
      rw [show number - index = (number - (index + 1)) + 1 by omega]
      exact at_

theorem body_finds {id : Nat} {r : Rule} (at_ : g.rules[id]? = some r) (place : Nat) :
    Finds tokens place (IsTree g (.rule id)) (body g tokens call r place) := by
  unfold body
  split
  · rename_i type isAlias
    refine (terminal_finds type place).map fun t taken ⟨same, eq⟩ => ?_
    exact ⟨.another at_ isAlias same, rfl, by rwa [Tree.tokens_leaf]⟩
  · rename_i alternatives isChoice
    refine (longest_finds calls place 0 alternatives).map ?_
    rintro ⟨index, children⟩ taken ⟨terms, -, among, derived, same⟩
    exact ⟨.choice at_ isChoice among derived, rfl, by rwa [Tree.tokens_node]⟩

end

/-- **What a call of a rule finds** is a tree of the rule, and has the tokens that the call
takes. -/
theorem rule_finds (g : Grammar) (tokens : List Token) (opened : List Call) (id place : Nat) :
    Finds tokens place (IsTree g (.rule id)) (rule g tokens opened id place) := by
  fun_induction rule g tokens opened id place with
  | case1 opened id place inside less none => nofun
  | case2 opened id place inside less r at_ ih => exact body_finds ih at_ place
  | case3 opened id place refused => nofun

end Plain

namespace Grammar

/-- **What the parser gives** is a tree of the grammar, and has the tokens that were
parsed. -/
theorem parseTokens_sound {g : Grammar} {tokens : List Token} {t : Tree}
    (parsed : g.parseTokens tokens = .ok t) :
    g.Derives (.rule g.entry) t ∧ t.label = none ∧ Covers t.tokens tokens := by
  rw [parseTokens_eq_parsePlainly] at parsed
  unfold parsePlainly Plain.verdict at parsed
  dsimp only at parsed
  split at parsed
  · cases parsed
  rename_i found
  split at parsed
  · cases parsed
  rename_i ended
  obtain rfl := Except.ok.inj parsed
  obtain ⟨taken, cut, derived, unlabeled, same⟩ := Plain.rule_finds g tokens [] g.entry 0 _ _ found
  rw [List.drop_eq_nil_of_le (Nat.le_of_not_lt ended), List.append_nil, List.drop_zero] at cut
  exact ⟨derived, unlabeled, by rwa [cut]⟩

/-- Tokens with a text are all the tokens with a text that their tree has. -/
theorem solidTokens_of_parseTokens {g : Grammar} {tokens : List Token} {t : Tree}
    (parsed : g.parseTokens tokens = .ok t) (solid : ∀ t ∈ tokens, t.isEmpty = false) :
    t.solidTokens = tokens := by
  obtain ⟨-, -, same, void⟩ := parseTokens_sound parsed
  rw [Tree.solidTokens, ← same, readTokens]
  refine List.filter_congr fun token mem => congrArg _ ?_
  -- a token has no text just if it is reserved
  cases reserved : isReserved token.type with
  | true => exact void token mem reserved
  | false =>
    refine solid token ?_
    rw [← same]
    exact List.mem_filter.2 ⟨mem, by rw [reserved]; rfl⟩

end Grammar

end Polyglot
