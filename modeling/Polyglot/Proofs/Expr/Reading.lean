import Polyglot.Proofs.Expr.Counterparts
import Polyglot.Proofs.Parsing.Predictive

/-!
# Reading expressions in B

The counterpart of the tree of an expression is what B reads from its tokens, if they stand
before a sign that no phrase of their level goes on with (`Corresponds.found`). All but one of
the alternatives of a phrase are ruled out by the next token; that a variable is not called shows
at the token after it.
-/

namespace Polyglot.Expr

open Along (RuleReads SymbolReads TermReads SeqReads SymbolFails SeqFails nextType exists_depth)
open Assembly (word)
open Lexicon (mark isReserved_quote)
open B (one)

/-! ## The grammar of B -/

/-- The rule of a phrase in B. -/
def Level.ruleB : Level → Nat
  | unary => 18
  | product => 17
  | sum => 16

/-- The signs that phrases may stand before, so that they are read up to there. -/
def Level.stops : Level → List String
  | unary => [")", ";"] ++ Chain.sum.signs ++ Chain.product.signs
  | product => [")", ";"] ++ Chain.sum.signs
  | sum => [")", ";"]

namespace Chain

variable (c : Chain)

/-- The rule of an operator with what comes after it, in B. -/
def linkRuleB : Chain → Nat
  | product => 36
  | sum => 34

/-- The rule of the sign of an operator in B. -/
def signRuleB : Chain → Nat
  | product => 37
  | sum => 35

theorem ruleB_at : B.readGrammar.rules[c.level.ruleB]? = some ⟨c.name, .choice
    [[one c.operand.ruleB, { one c.linkRuleB with multiplicity := .star }]]⟩ := by
  cases c <;> rfl

theorem linkRuleB_at : B.readGrammar.rules[c.linkRuleB]?
    = some ⟨c.name ++ ":0", .choice [[one c.signRuleB, one c.operand.ruleB]]⟩ := by
  cases c <;> rfl

theorem signRuleB_at : B.readGrammar.rules[c.signRuleB]?
    = some ⟨c.name ++ ":1", .choice (c.signs.map fun sign => [word sign])⟩ := by
  cases c <;> rfl

/-- Calls are made in the order of the rules. -/
theorem rulesB_lt : c.level.ruleB < c.operand.ruleB ∧ c.level.ruleB < c.linkRuleB
    ∧ c.linkRuleB < c.signRuleB := by
  cases c <;> decide

theorem stops_operand : c.operand.stops = c.level.stops ++ c.signs := by
  cases c <;> rfl

end Chain

/-- Whether a phrase may stand before tokens. -/
def Stops (level : Level) (rest : List Token) : Prop :=
  ∃ sign ∈ level.stops, nextType rest = some (Text.quote sign)

/-- Whether a tree is found for its tokens at a depth and at all greater ones. -/
def FoundFrom (level : Level) (depth : Nat) (t : Tree) : Prop :=
  ∀ depth' ≥ depth, ∀ rest, Stops level rest →
    RuleReads B.readGrammar depth' level.ruleB t.tokens t rest

section

variable {depth base : Nat} {rest : List Token} {text : String} {token : Token}

theorem type_of_mark (is : token.unplaced = mark text) : token.type = Text.quote text :=
  congrArg Token.type is

theorem mark_found (is : token.unplaced = mark text) :
    TermReads B.readGrammar depth base (word text) [token] (.ofToken token) rest :=
  .once rfl rfl (.terminal (type_of_mark is) (isReserved_quote text))

theorem nextType_mark (is : token.unplaced = mark text) (rest : List Token) :
    nextType (token :: rest) = some (Text.quote text) :=
  congrArg some (type_of_mark is)

/-! ## Chains of operators -/

theorem Chain.sign_found (c : Chain) (mem : text ∈ c.signs) (is : token.unplaced = mark text) :
    RuleReads B.readGrammar (depth + 1) c.signRuleB [token]
      (.node (c.name ++ ":1") none (some (c.signs.idxOf text)) [.ofToken token]) rest := by
  have selected : ∀ sign ∈ c.signs,
      Along.selects B.readGrammar (Text.quote sign) 0 c.signRuleB (c.signs.idxOf sign) := by
    cases c <;> decide
  have among : (c.signs.map fun sign => [word sign])[c.signs.idxOf text]? = some [word text] := by
    rw [List.getElem?_map, List.getElem?_idxOf mem]
    rfl
  exact .alternative c.signRuleB_at among (nextType_mark is rest)
    (Along.selects_mono (Nat.zero_le _) (selected text mem)) (.one (mark_found is))

/-- **Chains are found** if what is between their operators is found. -/
theorem chain_found (c : Chain) {first : Tree} {ks : List Link} (least : 1 ≤ depth)
    (bare : first.withLabel none = first) (head : FoundFrom c.operand depth first)
    (marks : ∀ k ∈ ks, k.sign ∈ c.signs ∧ k.token.unplaced = mark k.sign)
    (bares : ∀ k ∈ ks, k.operand.withLabel none = k.operand)
    (each : ∀ k ∈ ks, FoundFrom c.operand depth k.operand) :
    FoundFrom c.level (depth + 2) (c.tree first ks) := by
  intro depth' deep rest stops
  obtain ⟨depth', rfl⟩ : ∃ n, depth' = n + 3 := ⟨depth' - 3, by omega⟩
  obtain ⟨operand, link, sign⟩ := c.rulesB_lt
  have stopsOperand {rest : List Token} (stops : Stops c.level rest) : Stops c.operand rest := by
    obtain ⟨sign, mem, next⟩ := stops
    exact ⟨sign, c.stops_operand ▸ List.mem_append_left _ mem, next⟩
  have stopsLink {k : Link} (mem : k ∈ ks) (more : List Token) :
      Stops c.operand (k.token :: k.operand.tokens ++ more) := by
    obtain ⟨isSign, is⟩ := marks k mem
    exact ⟨k.sign, c.stops_operand ▸ List.mem_append_right _ isSign, nextType_mark is _⟩
  have found : ∀ k ∈ ks, ∀ more, Stops c.operand more → SymbolReads B.readGrammar (depth' + 2)
      c.level.ruleB (.rule c.linkRuleB) (k.token :: k.operand.tokens) (c.linkTree k) more := by
    intro k mem more stops
    obtain ⟨isSign, is⟩ := marks k mem
    have first : TermReads B.readGrammar (depth' + 1) c.linkRuleB (one c.signRuleB) [k.token]
        (.node (c.name ++ ":1") none (some (c.signs.idxOf k.sign)) [.ofToken k.token])
        (k.operand.tokens ++ more) :=
      .once rfl rfl (.rule sign (c.sign_found isSign is))
    have second : TermReads B.readGrammar (depth' + 1) 0 (one c.operand.ruleB) k.operand.tokens
        k.operand more :=
      .once rfl (bares k mem)
        (.rule (Nat.zero_lt_of_lt operand) (each k mem (depth' + 1) (by omega) more stops))
    exact .rule link (.only c.linkRuleB_at
      (.cons_further first (List.cons_ne_nil _ _) (.one second)))
  -- what comes after the chain is no sign of it
  have ends : SymbolFails B.readGrammar (depth' + 2) c.level.ruleB (.rule c.linkRuleB) rest := by
    have refused : ∀ sign ∈ c.level.stops, Along.refusesAfter B.readGrammar
        (some (Text.quote sign)) 2 c.level.ruleB (.rule c.linkRuleB) := by
      cases c <;> decide
    obtain ⟨sign, mem, next⟩ := stops
    refine .of_refuses ?_
    rw [next]
    exact Along.refusesAfter_mono (by omega) (refused sign mem)
  have several : TermReads B.readGrammar (depth' + 2) c.level.ruleB
      { one c.linkRuleB with multiplicity := .star }
      (ks.flatMap fun k => k.token :: k.operand.tokens)
      (.node (c.name ++ ":0*") none none (ks.map c.linkTree)) rest := by
    have name : B.readGrammar.symbolName (.rule c.linkRuleB) ++ "*" = c.name ++ ":0*" := by
      cases c <;> rfl
    rw [← name]
    exact .many (t := { one c.linkRuleB with multiplicity := .star }) (P := Stops c.operand)
      (.inl rfl) found (fun _ _ => List.cons_ne_nil _ _) (fun k mem => stopsLink mem)
      (stopsOperand stops) ends
  have next : Stops c.operand ((ks.flatMap fun k => k.token :: k.operand.tokens) ++ rest) := by
    cases ks with
    | nil => exact stopsOperand stops
    | cons k ks =>
      rw [List.flatMap_cons, List.append_assoc]
      exact stopsLink (List.mem_cons_self ..) _
  rw [c.tokens_tree]
  exact .only c.ruleB_at (.cons (.once rfl bare (.rule operand (head _ (by omega) _ next)))
    (.one several))

/-! ## Phrases without operators -/

/-- What starts with no sign is found as what it is besides. -/
theorem plain_found {type : String} {choice : Nat} {children : List Tree} {tokens : List Token}
    (next : nextType (tokens ++ rest) = some type)
    (selected : Along.selects B.readGrammar type depth Level.unary.ruleB 1)
    (primary : RuleReads B.readGrammar depth 19 tokens (.node "primary" none (some choice) children)
      rest) :
    RuleReads B.readGrammar (depth + 1) Level.unary.ruleB tokens (plainTree choice children) rest :=
  .alternative (i := 1) rfl rfl next selected (.one (.once rfl rfl (.rule (by decide) primary)))

theorem number_found (is : token.type = "decimal_integer") :
    FoundFrom .unary 4 (plainTree 3 [.leaf "integer" none (some "decimal_integer") token]) := by
  intro depth' deep rest _
  obtain ⟨depth', rfl⟩ : ∃ n, depth' = n + 3 := ⟨depth' - 3, by omega⟩
  have tokens : (plainTree 3 [.leaf "integer" none (some "decimal_integer") token]).tokens = [token] := by
    simp [plainTree]
  have next : nextType ([token] ++ rest) = some "decimal_integer" := congrArg some is
  have selected : Along.selects B.readGrammar "decimal_integer" 2 18 1
      ∧ Along.selects B.readGrammar "decimal_integer" 1 19 3 := by
    decide
  rw [tokens]
  refine plain_found next (Along.selects_mono (by omega) selected.1) ?_
  exact .alternative (i := 3) rfl rfl next (Along.selects_mono (by omega) selected.2)
    (.one (.once rfl rfl (.rule (by decide) (.another rfl is (by decide)))))

/-- A variable is no call if no bracket follows. -/
theorem variable_found (is : token.type = "identifier") :
    FoundFrom .unary 5 (plainTree 2 [.leaf "variable" none (some "identifier") token]) := by
  intro depth' deep rest stops
  obtain ⟨depth', rfl⟩ : ∃ n, depth' = n + 4 := ⟨depth' - 4, by omega⟩
  have tokens : (plainTree 2 [.leaf "variable" none (some "identifier") token]).tokens = [token] := by
    simp [plainTree]
  have next : nextType ([token] ++ rest) = some "identifier" := congrArg some is
  have selected : Along.selects B.readGrammar "identifier" 2 18 1 := by decide
  have noBracket : ∀ sign ∈ Level.unary.stops, Along.refusesAll
      (Along.refusesAfter B.readGrammar (some (Text.quote sign)) 0 0)
      [word "(", { one 21 with multiplicity := .optional }, word ")"] := by
    decide
  have noCall : SeqFails B.readGrammar (depth' + 2) 19 [one 20] (token :: rest) := by
    refine .head rfl (.rule (by decide) rfl fun terms mem => ?_)
    obtain rfl := List.mem_singleton.1 mem
    refine .token rfl rfl is (by decide) (.of_refuses ?_)
    obtain ⟨sign, mem, next⟩ := stops
    rw [next]
    exact Along.refusesAll_mono (fun x => Along.refusesAfter_mono (Nat.zero_le _)) (noBracket sign mem)
  have others : ∀ terms ∈ [[one 22], [one 24], [one 25], [word "(", one 12, word ")"]],
      Along.refusesAll (Along.refusesAfter B.readGrammar (some "identifier") 2 19) terms := by
    decide
  rw [tokens]
  refine plain_found next (Along.selects_mono (by omega) selected) ?_
  refine .among (i := 2) rfl rfl (List.forall_mem_cons.2 ⟨noCall, fun terms mem => .of_refuses ?_⟩)
    (.one (.once rfl rfl (.rule (by decide) (.another rfl is (by decide)))))
  rw [next]
  exact Along.refusesAll_mono (fun x => Along.refusesAfter_mono (by omega)) (others terms mem)

/-- A level of operators of which there are none. -/
theorem around_found (name : String) (id : Nat) {inner link : Nat} {tokens : List Token} {t : Tree}
    (at_ : B.readGrammar.rules[id]?
      = some ⟨name, .choice [[one inner, { one link with multiplicity := .star }]]⟩)
    (generated : B.readGrammar.symbolName (.rule link) ++ "*" = name ++ ":0*") (after : id < inner)
    (refused : ∀ sign ∈ Level.sum.stops,
      Along.refusesAfter B.readGrammar (some (Text.quote sign)) 2 id (.rule link))
    (stops : Stops .sum rest) (bare : t.withLabel none = t)
    (found : RuleReads B.readGrammar (depth + 2) inner tokens t rest) :
    RuleReads B.readGrammar (depth + 3) id tokens
      (.node name none (some 0) [t, .node (name ++ ":0*") none none []]) rest := by
  have never : Along.refusesAfter B.readGrammar (nextType rest) (depth + 2) id (.rule link) := by
    obtain ⟨sign, mem, next⟩ := stops
    rw [next]
    exact Along.refusesAfter_mono (by omega) (refused sign mem)
  have empty : TermReads B.readGrammar (depth + 2) id { one link with multiplicity := .star } []
      (.node (name ++ ":0*") none none []) rest := by
    rw [← generated]
    exact .star_absent rfl (.of_refuses never)
  have first : TermReads B.readGrammar (depth + 2) id (one inner) tokens t ([] ++ rest) :=
    .once rfl bare (.rule after found)
  rw [← List.append_nil tokens]
  exact .only at_ (.cons first (.one empty))

/-- A sum is found where operators of a lower level may be. -/
theorem wrapped_found {t : Tree} (bare : t.withLabel none = t) (found : FoundFrom .sum depth t)
    (stops : Stops .sum rest) {depth' : Nat} (deep : depth + 6 ≤ depth') :
    RuleReads B.readGrammar depth' 12 t.tokens (wrapped t) rest := by
  obtain ⟨depth', rfl⟩ : ∃ n, depth' = n + 6 := ⟨depth' - 6, by omega⟩
  have comparison := around_found "comparison" 15 rfl rfl (by decide) (by decide) stops bare
    (found (depth' + 2) (by omega) rest stops)
  have equality := around_found "equality" 14 rfl rfl (by decide) (by decide) stops rfl comparison
  have conjunction := around_found "conjunction" 13 rfl rfl (by decide) (by decide) stops rfl equality
  exact around_found "expression" 12 rfl rfl (by decide) (by decide) stops rfl conjunction

theorem group_found {t : Tree} {l r : Token} (opens : l.unplaced = mark "(")
    (closes : r.unplaced = mark ")") (bare : t.withLabel none = t) (found : FoundFrom .sum depth t) :
    FoundFrom .unary (depth + 9) (plainTree 5 [.ofToken l, wrapped t, .ofToken r]) := by
  intro depth' deep rest _
  obtain ⟨depth', rfl⟩ : ∃ n, depth' = n + 2 := ⟨depth' - 2, by omega⟩
  have tokens : (plainTree 5 [.ofToken l, wrapped t, .ofToken r]).tokens = [l] ++ (t.tokens ++ [r]) := by
    simp [plainTree, Tree.ofToken, tokens_wrapped]
  have next : nextType ([l] ++ (t.tokens ++ [r]) ++ rest) = some (Text.quote "(") :=
    nextType_mark opens _
  have selected : Along.selects B.readGrammar (Text.quote "(") 2 18 1
      ∧ Along.selects B.readGrammar (Text.quote "(") 2 19 5 := by
    decide
  have stops : Stops .sum ([r] ++ rest) := ⟨")", by decide, nextType_mark closes rest⟩
  have inner : SeqReads B.readGrammar depth' 19 [word "(", one 12, word ")"]
      ([l] ++ (t.tokens ++ [r])) [.ofToken l, wrapped t, .ofToken r] rest :=
    .cons_further (mark_found opens) (List.cons_ne_nil _ _) <|
      .cons (.once rfl rfl (.rule (by decide) (wrapped_found bare found stops (by omega))))
        (.one (mark_found closes))
  rw [tokens]
  refine plain_found next (Along.selects_mono (by omega) selected.1) ?_
  exact .alternative rfl rfl next (Along.selects_mono (by omega) selected.2) inner

theorem negate_found {t : Tree} (minus : token.unplaced = mark "-") (bare : t.withLabel none = t)
    (found : FoundFrom .unary depth t) : FoundFrom .unary (depth + 4)
      (.node "unary" none (some 0) [.node "unary:0" none (some 1) [.ofToken token], t]) := by
  intro depth' deep rest stops
  obtain ⟨depth', rfl⟩ : ∃ n, depth' = n + 2 := ⟨depth' - 2, by omega⟩
  have tokens : (Tree.node "unary" none (some 0) [.node "unary:0" none (some 1) [.ofToken token], t]).tokens
      = [token] ++ t.tokens := by
    simp [Tree.ofToken]
  have selected : Along.selects B.readGrammar (Text.quote "-") 2 18 0
      ∧ Along.selects B.readGrammar (Text.quote "-") 2 38 1 := by
    decide
  have sign : RuleReads B.readGrammar (depth' + 1) 38 [token]
      (.node "unary:0" none (some 1) [.ofToken token]) (t.tokens ++ rest) :=
    .alternative rfl rfl (nextType_mark minus _) (Along.selects_mono (by omega) selected.2)
      (.one (mark_found minus))
  have operand : TermReads B.readGrammar (depth' + 1) 0 (one 18) t.tokens t rest :=
    .once rfl bare (.rule (by decide) (found _ (by omega) rest stops))
  rw [tokens]
  exact .alternative rfl rfl (nextType_mark minus _) (Along.selects_mono (by omega) selected.1) <|
    .cons_further (.once rfl rfl (.rule (by decide) sign)) (List.cons_ne_nil _ _) (.one operand)

end

/-! ## Counterparts -/

variable {names : List String} {level : Level} {t t' : Tree}

theorem FoundFrom.mono {depth depth' : Nat} (found : FoundFrom level depth t) (le : depth ≤ depth') :
    FoundFrom level depth' t :=
  fun deeper deep => found deeper (Nat.le_trans le deep)

theorem Corresponds.bare (h : Corresponds names level t t') : t'.withLabel none = t' := by
  cases h <;> rfl

/-- **The counterpart is found** for its tokens. -/
theorem Corresponds.found (h : Corresponds names level t t') : ∃ depth, FoundFrom level depth t' := by
  induction h with
  | number is => exact ⟨4, number_found is⟩
  | «variable» is => exact ⟨5, variable_found is⟩
  | group opens closes inner ih =>
    obtain ⟨depth, found⟩ := ih
    exact ⟨depth + 9, group_found opens.2 closes.2 inner.bare found⟩
  | negate minus operand ih =>
    obtain ⟨depth, found⟩ := ih
    exact ⟨depth + 4, negate_found minus.2 operand.bare found⟩
  | @chain c first first' links head signs operands ih ih' =>
    obtain ⟨depth, found⟩ := ih
    have later : ∀ k ∈ links.map (·.2), ∃ depth', FoundFrom c.operand depth' k.operand :=
      List.forall_mem_map.2 ih'
    obtain ⟨depth', least, each⟩ := exists_depth (depth + 1) later
    refine ⟨depth' + 2, chain_found c (by omega) head.bare (found.mono (by omega))
      (List.forall_mem_map.2 fun k mem => ?_) (List.forall_mem_map.2 fun k mem => (operands k mem).bare)
      each⟩
    obtain ⟨isSign, same, -, is⟩ := signs k mem
    rw [same]
    exact ⟨isSign, is⟩

end Polyglot.Expr
