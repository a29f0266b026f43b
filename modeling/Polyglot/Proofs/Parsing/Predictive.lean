import Polyglot.Proofs.Parsing.Suffixes

/-!
# Reading by the next token

What the parser finds is the longest of what it could find, and to know this one has to know
of all the alternatives that were not taken. Where the type of the next token leaves only
one of them it is enough to look at that one. Whether a rule is ruled out by the type of a
token can be computed (`Along.refuses`).

If, besides, no rule is called from within itself at the same place, what is found can be put
together from the parts of a rule: the terms of the one alternative, one after the other
(`Along.SeqReads`), give a tree of the rule (`Along.RuleReads`). What is asked of calls is that
they are made in the order of the rules, or of some ranks of them, or further on (`Along.Ordered`),
so that no open call is ever met.
-/

namespace Polyglot.Along

/-! ## What is ruled out -/

/-- Whether a terminal is ruled out by the type of the next token, if there is one. -/
def refusesTerminal (type : Option String) (name : String) : Bool :=
  !isReserved name && type != some name

/-- Whether a symbol is ruled out, given which rules are. -/
def refusesSymbol (type : Option String) (call : Nat → Bool) : Symbol → Bool
  | .rule id => call id
  | .terminal name => refusesTerminal type name

/-- Whether terms are ruled out, given which symbols are. -/
def refusesAll (symbol : Symbol → Bool) : List Term → Bool
  | [] => false
  | t :: ts =>
    symbol t.symbol && (t.multiplicity == .one || t.multiplicity == .plus || refusesAll symbol ts)

/-- Whether a rule is ruled out, as far as can be seen at a depth. -/
def refuses (g : Grammar) (type : Option String) : Nat → Nat → Bool
  | 0, _ => false
  | depth + 1, id =>
    match g.rules[id]? with
    | none => true
    | some r =>
      match r.body with
      | .aliasOf name => refusesTerminal type name
      | .choice alternatives =>
        alternatives.all (refusesAll (refusesSymbol type (refuses g type depth)))

/-- Whether all alternatives of a rule but one are ruled out by a token of a type. -/
def selects (g : Grammar) (type : String) (depth id index : Nat) : Bool :=
  match g.rules[id]? with
  | some ⟨_, .choice alternatives⟩ =>
    (alternatives.eraseIdx index).all
      (refusesAll (refusesSymbol (some type) (refuses g (some type) depth)))
  | _ => false

/-! ### The depth does not matter -/

theorem refusesAll_mono {symbol symbol' : Symbol → Bool} (more : ∀ x, symbol x → symbol' x)
    {ts : List Term} (refused : refusesAll symbol ts) : refusesAll symbol' ts := by
  induction ts with
  | nil => cases refused
  | cons t ts ih =>
    obtain ⟨here, later⟩ := Bool.and_eq_true_iff.1 refused
    rw [refusesAll, more _ here, Bool.true_and]
    rw [Bool.or_eq_true] at later ⊢
    exact later.imp_right ih

theorem refusesSymbol_mono {type : Option String} {call call' : Nat → Bool}
    (more : ∀ id, call id → call' id) {x : Symbol} (refused : refusesSymbol type call x) :
    refusesSymbol type call' x := by
  cases x with
  | rule id => exact more id refused
  | terminal name => exact refused

/-- What is ruled out at a depth is ruled out at a greater one. -/
theorem refuses_mono {g : Grammar} {type : Option String} {depth depth' id : Nat}
    (le : depth ≤ depth') (refused : refuses g type depth id) : refuses g type depth' id := by
  induction depth generalizing depth' id with
  | zero => cases refused
  | succ depth ih =>
    obtain ⟨depth', rfl⟩ : ∃ n, depth' = n + 1 := ⟨depth' - 1, by omega⟩
    rw [refuses] at refused ⊢
    cases found : g.rules[id]? with
    | none => rfl
    | some r =>
      rw [found] at refused
      dsimp only at refused ⊢
      cases is : r.body with
      | aliasOf name => rwa [is] at refused
      | choice alternatives =>
        rw [is] at refused
        refine List.all_eq_true.2 fun terms mem => ?_
        refine refusesAll_mono (fun x => refusesSymbol_mono fun id' => ?_)
          (List.all_eq_true.1 refused terms mem)
        exact ih (Nat.le_of_succ_le_succ le)

theorem selects_mono {g : Grammar} {type : String} {depth depth' id index : Nat}
    (le : depth ≤ depth') (selected : selects g type depth id index) :
    selects g type depth' id index := by
  unfold selects at selected ⊢
  split at selected
  · refine List.all_eq_true.2 fun terms mem => ?_
    refine refusesAll_mono (fun x => refusesSymbol_mono fun id' => ?_)
      (List.all_eq_true.1 selected terms mem)
    exact refuses_mono le
  · cases selected

/-- The type of the next token, if there is one. -/
def nextType (tokens : List Token) : Option String := tokens.head?.map Token.type

section

variable {g : Grammar} {limit : Nat} {call : Nat → Spot → Outcome Tree} {s : Spot}

theorem terminal_of_refuses {name : String} (refused : refusesTerminal (nextType s.2) name) :
    terminal name s = some none := by
  obtain ⟨known, other⟩ := Bool.and_eq_true_iff.1 refused
  rw [Bool.not_eq_true'] at known
  unfold terminal
  rw [known, if_neg Bool.false_ne_true]
  cases next : s.2 with
  | nil => rfl
  | cons t rest =>
    rw [next] at other
    have differs : t.type ≠ name := fun same => bne_iff_ne.1 other (congrArg some same)
    dsimp only
    rw [if_neg (bne_iff_ne.1 (by simpa using differs))]

/-- Nothing comes of repeating what is not there. -/
theorem rounds_of_none {parse : Spot → Outcome Tree} (never : parse s = some none)
    (multiplicity : Multiplicity) (fuel : Nat) (first : Bool) :
    rounds parse multiplicity fuel first s = some (some ([], s)) := by
  cases fuel with
  | zero => rfl
  | succ fuel => rw [rounds, never]

variable {calls : Nat → Bool} (agree : ∀ id, calls id → call id s = some none)
include agree

theorem symbol_of_refuses {x : Symbol} (refused : refusesSymbol (nextType s.2) calls x) :
    symbol call x s = some none := by
  cases x with
  | rule id => exact agree id refused
  | terminal name =>
    rw [symbol, terminal_of_refuses refused]
    rfl

theorem sequence_of_refuses {ts : List Term}
    (refused : refusesAll (refusesSymbol (nextType s.2) calls) ts) :
    sequence g limit call ts s = some none := by
  induction ts with
  | nil => cases refused
  | cons t ts ih =>
    obtain ⟨here, later⟩ := Bool.and_eq_true_iff.1 refused
    have never := symbol_of_refuses agree here
    rw [sequence, term]
    -- a term that may match nothing does so, and then it is for the others to be ruled out
    cases often : t.multiplicity with
    | one =>
      rw [if_pos rfl, never]
      rfl
    | plus =>
      rw [if_neg nofun, repeated, rounds_of_none never]
      rfl
    | optional | star =>
      rw [if_neg nofun, repeated, rounds_of_none never]
      rw [often] at later
      have more := ih (by simpa using later)
      simp [Outcome.andThen, Outcome.map, more]

theorem longest_of_refuses {alternatives : List (List Term)} (index : Nat)
    (refused : alternatives.all (refusesAll (refusesSymbol (nextType s.2) calls))) :
    longest g limit call s index alternatives = some none := by
  induction alternatives generalizing index with
  | nil => rfl
  | cons terms rest ih =>
    obtain ⟨first, others⟩ := Bool.and_eq_true_iff.1 (List.all_cons.symm.trans refused)
    rw [longest, sequence_of_refuses agree first, ih (index + 1) others]
    rfl

end

/-- **What is ruled out** is not there. -/
theorem rule_of_refuses {g : Grammar} {limit depth : Nat} {here : List Nat} {id : Nat} {s : Spot}
    (refused : refuses g (nextType s.2) depth id) : rule g limit depth here id s = some none := by
  induction depth generalizing here id with
  | zero => cases refused
  | succ depth ih =>
    rw [rule]
    split
    · rfl
    rw [refuses] at refused
    cases found : g.rules[id]? with
    | none => rfl
    | some r =>
      rw [found] at refused
      dsimp only at refused ⊢
      unfold body
      cases is : r.body with
      | aliasOf name =>
        rw [is] at refused
        dsimp only
        rw [terminal_of_refuses refused]
        rfl
      | choice alternatives =>
        rw [is] at refused
        have never : longest g limit
            (fun id' s' => rule g limit depth (if s'.1 = s.1 then id :: here else []) id' s') s 0
            alternatives = some none := by
          refine longest_of_refuses ?_ 0 refused
          exact fun id' refused' => ih refused'
        dsimp only
        rw [never]
        rfl

/-! ## What is found -/

/-- Whether calls, from a place on, are calls of rules none of which is open, as long as the
rule that is called comes after a given one. Further on than at this place it may be any rule
but the first. Rules come one after the other by their ranks, which are their numbers if nothing
else is said. -/
def Ordered (g : Grammar) (limit depth base start : Nat) (call : Nat → Spot → Outcome Tree)
    (rank : Nat → Nat := fun id => id) : Prop :=
  ∀ id s, start ≤ s.1 → rank base < rank id ∨ rank 0 < rank id ∧ start < s.1 →
    ∃ here, (∀ h ∈ here, rank h < rank id) ∧ call id s = rule g limit depth here id s

namespace Ordered

variable {g : Grammar} {limit depth base start start' : Nat} {call : Nat → Spot → Outcome Tree}
  {rank : Nat → Nat}

theorem later (ordered : Ordered g limit depth base start call rank) (le : start ≤ start') :
    Ordered g limit depth base start' call rank := by
  intro id s after which
  refine ordered id s (Nat.le_trans le after) (which.imp_right fun further => ?_)
  exact ⟨further.1, Nat.lt_of_le_of_lt le further.2⟩

theorem further (ordered : Ordered g limit depth base start call rank) (lt : start < start') :
    Ordered g limit depth 0 start' call rank := by
  intro id s after which
  have positive : rank 0 < rank id := which.elim (fun after => after) fun further => further.1
  exact ordered id s (Nat.le_trans (Nat.le_of_lt lt) after)
    (.inr ⟨positive, Nat.lt_of_lt_of_le lt after⟩)

end Ordered

/-- Whether a symbol is ruled out, and comes after a given rule by its rank if it is one. -/
def refusesBehind (rank : Nat → Nat) (g : Grammar) (type : Option String) (depth base : Nat) (x : Symbol) :
    Bool :=
  refusesSymbol type (fun id => rank base < rank id && refuses g type depth id) x

/-- Whether a symbol is ruled out, and comes after a given rule by its number if it is one. -/
abbrev refusesAfter (g : Grammar) (type : Option String) (depth base : Nat) (x : Symbol) : Bool :=
  refusesBehind (fun id => id) g type depth base x

theorem refusesBehind_mono {rank : Nat → Nat} {g : Grammar} {type : Option String}
    {depth depth' base : Nat} {x : Symbol} (le : depth ≤ depth')
    (refused : refusesBehind rank g type depth base x) : refusesBehind rank g type depth' base x := by
  refine refusesSymbol_mono (fun id here => ?_) refused
  obtain ⟨after, never⟩ := Bool.and_eq_true_iff.1 here
  exact Bool.and_eq_true_iff.2 ⟨after, refuses_mono le never⟩

theorem refusesAfter_mono {g : Grammar} {type : Option String} {depth depth' base : Nat} {x : Symbol}
    (le : depth ≤ depth') (refused : refusesAfter g type depth base x) :
    refusesAfter g type depth' base x :=
  refusesBehind_mono le refused

theorem Ordered.symbol_of_refuses {g : Grammar} {limit depth base start : Nat} {rank : Nat → Nat}
    {call : Nat → Spot → Outcome Tree} (ordered : Ordered g limit depth base start call rank) {x : Symbol}
    {s : Spot} (here : start ≤ s.1) (refused : refusesBehind rank g (nextType s.2) depth base x) :
    symbol call x s = some none := by
  refine Along.symbol_of_refuses (fun id calls => ?_) refused
  obtain ⟨after, never⟩ := Bool.and_eq_true_iff.1 calls
  obtain ⟨_, -, eq⟩ := ordered id s here (.inl (of_decide_eq_true after))
  rw [eq, rule_of_refuses never]

/-- Whether a rule is found as a tree with tokens before others, wherever no later rule is
open. -/
def RuleReads (g : Grammar) (depth id : Nat) (tokens : List Token) (t : Tree) (rest : List Token)
    (rank : Nat → Nat := fun id => id) : Prop :=
  ∀ limit here p, tokens.length < limit → (∀ h ∈ here, rank h < rank id) →
    rule g limit depth here id (p, tokens ++ rest) = some (some (t, p + tokens.length, rest))

/-- Whether a symbol is found as a tree with tokens before others. -/
def SymbolReads (g : Grammar) (depth base : Nat) (x : Symbol) (tokens : List Token) (t : Tree)
    (rest : List Token) (rank : Nat → Nat := fun id => id) : Prop :=
  ∀ limit call p, tokens.length < limit → Ordered g limit depth base p call rank →
    symbol call x (p, tokens ++ rest) = some (some (t, p + tokens.length, rest))

/-- Whether a term is found as a tree with tokens before others. -/
def TermReads (g : Grammar) (depth base : Nat) (t : Term) (tokens : List Token) (tree : Tree)
    (rest : List Token) (rank : Nat → Nat := fun id => id) : Prop :=
  ∀ limit call p, tokens.length < limit → Ordered g limit depth base p call rank →
    term g limit call t (p, tokens ++ rest) = some (some (tree, p + tokens.length, rest))

/-- Whether terms are found as trees with tokens before others. -/
def SeqReads (g : Grammar) (depth base : Nat) (ts : List Term) (tokens : List Token)
    (trees : List Tree) (rest : List Token) (rank : Nat → Nat := fun id => id) : Prop :=
  ∀ limit call p, tokens.length < limit → Ordered g limit depth base p call rank →
    sequence g limit call ts (p, tokens ++ rest) = some (some (trees, p + tokens.length, rest))

/-- Whether a symbol is not found before tokens. -/
def SymbolFails (g : Grammar) (depth base : Nat) (x : Symbol) (tokens : List Token)
    (rank : Nat → Nat := fun id => id) : Prop :=
  ∀ limit call p, Ordered g limit depth base p call rank → symbol call x (p, tokens) = some none

/-- Whether terms are not found before tokens. -/
def SeqFails (g : Grammar) (depth base : Nat) (ts : List Term) (tokens : List Token)
    (rank : Nat → Nat := fun id => id) : Prop :=
  ∀ limit call p, Ordered g limit depth base p call rank →
    sequence g limit call ts (p, tokens) = some none

section

variable {g : Grammar} {depth base id : Nat} {x : Symbol} {t : Term} {ts : List Term}
  {tokens more rest : List Token} {tree : Tree} {trees : List Tree} {rank : Nat → Nat}

theorem terminal_of_type {token : Token} {type : String} (is : token.type = type)
    (known : isReserved type = false) (p : Nat) :
    terminal type (p, token :: rest) = some (some (token, p + 1, rest)) := by
  simp [terminal, known, is]

namespace SymbolReads

theorem rule (after : rank base < rank id) (reads : RuleReads g depth id tokens tree rest rank) :
    SymbolReads g depth base (.rule id) tokens tree rest rank := by
  intro limit call p short ordered
  obtain ⟨here, earlier, eq⟩ := ordered id (p, tokens ++ rest) (Nat.le_refl _) (.inl after)
  rw [symbol, eq]
  exact reads limit here p short earlier

theorem terminal {token : Token} {type : String} (is : token.type = type)
    (known : isReserved type = false) :
    SymbolReads g depth base (.terminal type) [token] (.ofToken token) rest rank := by
  intro limit call p _ _
  rw [symbol, List.singleton_append, terminal_of_type is known]
  rfl

end SymbolReads

namespace SymbolFails

theorem of_refuses (refused : refusesBehind rank g (nextType rest) depth base x) :
    SymbolFails g depth base x rest rank :=
  fun _ _ _ ordered => ordered.symbol_of_refuses (Nat.le_refl _) refused

end SymbolFails

/-- What holds of each item from some depth on holds of all of them from one depth on. -/
theorem exists_depth {α : Type} {P : α → Nat → Prop} (least : Nat) {as : List α}
    (each : ∀ a ∈ as, ∃ depth, ∀ n ≥ depth, P a n) : ∃ depth ≥ least, ∀ a ∈ as, ∀ n ≥ depth, P a n := by
  induction as with
  | nil => exact ⟨least, Nat.le_refl _, List.forall_mem_nil _⟩
  | cons a as ih =>
    obtain ⟨⟨depth, first⟩, others⟩ := List.forall_mem_cons.1 each
    obtain ⟨depth', enough, later⟩ := ih others
    refine ⟨max depth depth', Nat.le_trans enough (Nat.le_max_right ..), List.forall_mem_cons.2
      ⟨fun n deep => first n ?_, fun b mem n deep => later b mem n ?_⟩⟩
    · exact Nat.le_trans (Nat.le_max_left ..) deep
    · exact Nat.le_trans (Nat.le_max_right ..) deep

/-- Rounds of what is there as often as there are items, and then not. Whether an item is
found may depend on what follows it, which is another item or the rest. -/
theorem rounds_of_items {α : Type} {items : List α} {tokensOf : α → List Token}
    {treeOf : α → Tree} {multiplicity : Multiplicity} {follows : List Token → Prop}
    (often : multiplicity ≠ .optional)
    (each : ∀ a ∈ items, ∀ more, follows more →
      SymbolReads g depth base x (tokensOf a) (treeOf a) more rank)
    (solid : ∀ a ∈ items, tokensOf a ≠ [])
    (starts : ∀ a ∈ items, ∀ more, follows (tokensOf a ++ more)) (last : follows rest)
    (ends : SymbolFails g depth base x rest rank) {limit start : Nat}
    {call : Nat → Spot → Outcome Tree} (ordered : Ordered g limit depth base start call rank)
    (fuel : Nat) (first : Bool) {p : Nat} (after : start ≤ p)
    (enough : (items.flatMap tokensOf).length < fuel)
    (short : (items.flatMap tokensOf).length < limit) :
    rounds (symbol call x) multiplicity fuel first (p, items.flatMap tokensOf ++ rest)
      = some (some (items.map treeOf, p + (items.flatMap tokensOf).length, rest)) := by
  induction items generalizing fuel first p with
  | nil => exact rounds_of_none (ends limit call p (ordered.later after)) _ _ _
  | cons a items ih =>
    cases fuel with
    | zero => exact absurd enough (Nat.not_lt_zero _)
    | succ fuel =>
      obtain ⟨each, eachOther⟩ := List.forall_mem_cons.1 each
      obtain ⟨solid, solidOther⟩ := List.forall_mem_cons.1 solid
      obtain ⟨-, starts⟩ := List.forall_mem_cons.1 starts
      have pos := List.length_pos_iff.2 solid
      rw [List.flatMap_cons, List.length_append] at enough short
      have next : follows (items.flatMap tokensOf ++ rest) := by
        cases items with
        | nil => exact last
        | cons b items =>
          rw [List.flatMap_cons, List.append_assoc]
          exact starts b (List.mem_cons_self ..) _
      have found := each _ next limit call p (by omega) (ordered.later after)
      have later : start ≤ p + (tokensOf a).length := by omega
      have others := ih eachOther solidOther starts fuel false later (by omega) (by omega)
      rw [List.flatMap_cons, List.append_assoc, rounds, found]
      dsimp only
      rw [if_neg (by omega), if_neg often, others, List.length_append, Nat.add_assoc]
      rfl

namespace TermReads

theorem once {tree' : Tree} (single : t.multiplicity = .one)
    (labeled : tree.withLabel t.label = tree')
    (reads : SymbolReads g depth base t.symbol tokens tree rest rank) :
    TermReads g depth base t tokens tree' rest rank := by
  intro limit call p short ordered
  rw [term, if_pos single, reads limit call p short ordered, ← labeled]
  rfl

/-- A repetition of what is there as often as there are items, and then not. -/
theorem many {α : Type} {items : List α} {tokensOf : α → List Token} {treeOf : α → Tree}
    {P : List Token → Prop}
    (often : t.multiplicity = .star ∨ t.multiplicity = .plus ∧ items ≠ [])
    (each : ∀ a ∈ items, ∀ more, P more →
      SymbolReads g depth base t.symbol (tokensOf a) (treeOf a) more rank)
    (solid : ∀ a ∈ items, tokensOf a ≠ [])
    (starts : ∀ a ∈ items, ∀ more, P (tokensOf a ++ more)) (last : P rest)
    (ends : SymbolFails g depth base t.symbol rest rank) :
    TermReads g depth base t (items.flatMap tokensOf)
      (.node (g.symbolName t.symbol ++ t.multiplicity.suffix) t.label none (items.map treeOf))
      rest rank := by
  intro limit call p short ordered
  have notOnce : t.multiplicity ≠ .one := by
    rcases often with often | ⟨often, -⟩ <;> rw [often] <;> nofun
  have notOptional : t.multiplicity ≠ .optional := by
    rcases often with often | ⟨often, -⟩ <;> rw [often] <;> nofun
  have there : (t.multiplicity == .plus && (items.map treeOf).isEmpty) = false := by
    rcases often with often | ⟨often, ne⟩
    · rw [often]
      rfl
    · simp [ne]
  rw [term, if_neg notOnce, repeated,
    rounds_of_items notOptional each solid starts last ends ordered limit true (Nat.le_refl _) short
      short]
  dsimp only [Outcome.andThen]
  rw [if_neg (Bool.eq_false_iff.1 there)]
  rfl

/-- A repetition whose items are found whatever follows. -/
theorem star {α : Type} {items : List α} {tokensOf : α → List Token} {treeOf : α → Tree}
    (often : t.multiplicity = .star)
    (each : ∀ a ∈ items, ∀ rest, SymbolReads g depth base t.symbol (tokensOf a) (treeOf a) rest rank)
    (solid : ∀ a ∈ items, tokensOf a ≠ [])
    (ends : refusesBehind rank g (nextType rest) depth base t.symbol) :
    TermReads g depth base t (items.flatMap tokensOf)
      (.node (g.symbolName t.symbol ++ "*") t.label none (items.map treeOf)) rest rank := by
  have reads := many (P := fun _ => True) (.inl often) (fun a mem more _ => each a mem more)
    solid (fun _ _ _ => trivial) trivial (.of_refuses ends)
  rwa [often] at reads

theorem optional_some (often : t.multiplicity = .optional) (solid : tokens ≠ [])
    (reads : SymbolReads g depth base t.symbol tokens tree rest rank) :
    TermReads g depth base t tokens (.node (g.symbolName t.symbol ++ "?") t.label none [tree]) rest rank := by
  intro limit call p short ordered
  have pos := List.length_pos_iff.2 solid
  obtain ⟨fuel, rfl⟩ : ∃ fuel, limit = fuel + 1 := ⟨limit - 1, by omega⟩
  rw [term, if_neg (by rw [often]; nofun), often, repeated, rounds, reads _ call p short ordered]
  dsimp only
  rw [if_neg (by omega), if_pos rfl]
  rfl

/-- What is not there is passed over. -/
theorem optional_absent (often : t.multiplicity = .optional)
    (ends : SymbolFails g depth base t.symbol rest rank) :
    TermReads g depth base t [] (.node (g.symbolName t.symbol ++ "?") t.label none []) rest rank := by
  intro limit call p short ordered
  rw [term, if_neg (by rw [often]; nofun), often, repeated, List.nil_append,
    rounds_of_none (ends limit call p ordered)]
  rfl

theorem star_absent (often : t.multiplicity = .star) (ends : SymbolFails g depth base t.symbol rest rank) :
    TermReads g depth base t [] (.node (g.symbolName t.symbol ++ "*") t.label none []) rest rank := by
  intro limit call p short ordered
  rw [term, if_neg (by rw [often]; nofun), often, repeated, List.nil_append,
    rounds_of_none (ends limit call p ordered)]
  rfl

theorem optional_none (often : t.multiplicity = .optional)
    (ends : refusesBehind rank g (nextType rest) depth base t.symbol) :
    TermReads g depth base t [] (.node (g.symbolName t.symbol ++ "?") t.label none []) rest rank :=
  optional_absent often (.of_refuses ends)

end TermReads

/-- Terms are parsed as their first ones are, and then the others. -/
theorem sequence_append {limit : Nat} {call : Nat → Spot → Outcome Tree} {ts' : List Term} (s : Spot) :
    sequence g limit call (ts ++ ts') s = (sequence g limit call ts s).andThen fun trees s =>
      (sequence g limit call ts' s).map (trees ++ ·) := by
  induction ts generalizing s with
  | nil =>
    show sequence g limit call ts' s = (sequence g limit call ts' s).map ([] ++ ·)
    rcases sequence g limit call ts' s with _ | _ | _ <;> rfl
  | cons t ts ih =>
    rw [List.cons_append, sequence, sequence]
    rcases term g limit call t s with _ | _ | ⟨tree, s'⟩
    · rfl
    · rfl
    · dsimp only [Outcome.andThen]
      rw [ih]
      rcases sequence g limit call ts s' with _ | _ | ⟨trees, s''⟩
      · rfl
      · rfl
      · dsimp only [Outcome.andThen, Outcome.map, Option.map]
        rcases sequence g limit call ts' s'' with _ | _ | _ <;> rfl

namespace SeqReads

theorem nil : SeqReads g depth base [] [] [] rest rank := fun _ _ _ _ _ => rfl

theorem one (only : TermReads g depth base t tokens tree rest rank) :
    SeqReads g depth base [t] tokens [tree] rest rank := by
  intro limit call p short ordered
  rw [sequence, only limit call p short ordered]
  rfl

theorem cons (first : TermReads g depth base t tokens tree (more ++ rest) rank)
    (others : SeqReads g depth base ts more trees rest rank) :
    SeqReads g depth base (t :: ts) (tokens ++ more) (tree :: trees) rest rank := by
  intro limit call p short ordered
  rw [List.length_append] at short ⊢
  rw [sequence, List.append_assoc, first limit call p (by omega) ordered]
  dsimp only [Outcome.andThen]
  rw [others limit call _ (by omega) (ordered.later (Nat.le_add_right ..)), Nat.add_assoc]
  rfl

/-- Behind a term that takes something any rule may be called. -/
theorem cons_further (first : TermReads g depth base t tokens tree (more ++ rest) rank)
    (solid : tokens ≠ []) (others : SeqReads g depth 0 ts more trees rest rank) :
    SeqReads g depth base (t :: ts) (tokens ++ more) (tree :: trees) rest rank := by
  intro limit call p short ordered
  have pos := List.length_pos_iff.2 solid
  rw [List.length_append] at short ⊢
  rw [sequence, List.append_assoc, first limit call p (by omega) ordered]
  dsimp only [Outcome.andThen]
  rw [others limit call _ (by omega) (ordered.further (by omega)), Nat.add_assoc]
  rfl

/-- Behind terms that take something any rule may be called. -/
theorem append_further {ts' : List Term} {trees' : List Tree}
    (first : SeqReads g depth base ts tokens trees (more ++ rest) rank) (solid : tokens ≠ [])
    (others : SeqReads g depth 0 ts' more trees' rest rank) :
    SeqReads g depth base (ts ++ ts') (tokens ++ more) (trees ++ trees') rest rank := by
  intro limit call p short ordered
  have pos := List.length_pos_iff.2 solid
  rw [List.length_append] at short ⊢
  rw [sequence_append, List.append_assoc, first limit call p (by omega) ordered]
  dsimp only [Outcome.andThen]
  rw [others limit call _ (by omega) (ordered.further (by omega)), Nat.add_assoc]
  rfl

end SeqReads

namespace SeqFails

theorem of_refuses (refused : refusesAll (refusesBehind rank g (nextType rest) depth base) ts) :
    SeqFails g depth base ts rest rank := by
  intro limit call p ordered
  have never (id : Nat) (calls : (rank base < rank id && refuses g (nextType rest) depth id) = true) :
      call id (p, rest) = some none := by
    obtain ⟨after, never⟩ := Bool.and_eq_true_iff.1 calls
    obtain ⟨_, -, eq⟩ := ordered id (p, rest) (Nat.le_refl _) (.inl (of_decide_eq_true after))
    rw [eq, rule_of_refuses never]
  exact sequence_of_refuses never refused

/-- If the first term is not found, none is. -/
theorem head (single : t.multiplicity = .one) (never : SymbolFails g depth base t.symbol rest rank) :
    SeqFails g depth base (t :: ts) rest rank := by
  intro limit call p ordered
  rw [sequence, term, if_pos single, never limit call p ordered]
  rfl

/-- If all is missing behind a token, it is behind its term. -/
theorem token {token : Token} {type : String} (single : t.multiplicity = .one)
    (asks : t.symbol = .terminal type) (is : token.type = type) (known : isReserved type = false)
    (others : SeqFails g depth 0 ts rest rank) : SeqFails g depth base (t :: ts) (token :: rest) rank := by
  intro limit call p ordered
  rw [sequence, term, if_pos single, asks, symbol, terminal_of_type is known]
  dsimp only [Outcome.map, Outcome.andThen, Option.map]
  rw [others limit call _ (ordered.further (Nat.lt_succ_self _))]

end SeqFails

/-- The calls that are made for the body of a rule come after it, or further on. -/
theorem ordered_body {limit : Nat} {here : List Nat} (p : Nat) (earlier : ∀ h ∈ here, rank h < rank id) :
    Ordered g limit depth id p
      (fun id' s => rule g limit depth (if s.1 = p then id :: here else []) id' s) rank := by
  intro id' s _ which
  refine ⟨_, fun h mem => ?_, rfl⟩
  split at mem
  · rename_i same
    have after : rank id < rank id' := which.resolve_right fun further => Nat.lt_irrefl p (same ▸ further.2)
    rcases List.mem_cons.1 mem with rfl | mem
    · exact after
    · exact Nat.lt_trans (earlier h mem) after
  · cases mem

/-- Of alternatives none of which is there none is the longest. -/
theorem longest_of_none {limit : Nat} {call : Nat → Spot → Outcome Tree} {s : Spot}
    {alternatives : List (List Term)} (index : Nat)
    (never : ∀ terms ∈ alternatives, sequence g limit call terms s = some none) :
    longest g limit call s index alternatives = some none := by
  induction alternatives generalizing index with
  | nil => rfl
  | cons terms rest ih =>
    obtain ⟨first, others⟩ := List.forall_mem_cons.1 never
    rw [longest, first, ih (index + 1) others]
    rfl

/-- A rule is not found if none of its alternatives is. -/
theorem SymbolFails.rule {name : String} {alternatives : List (List Term)} (after : rank base < rank id)
    (found : g.rules[id]? = some ⟨name, .choice alternatives⟩)
    (never : ∀ terms ∈ alternatives, SeqFails g depth id terms rest rank) :
    SymbolFails g (depth + 1) base (.rule id) rest rank := by
  intro limit call p ordered
  obtain ⟨here, earlier, eq⟩ := ordered id (p, rest) (Nat.le_refl _) (.inl after)
  have closed : here.contains id = false := Bool.eq_false_iff.2 fun mem =>
    Nat.lt_irrefl _ (earlier id (List.contains_iff_mem.1 mem))
  have none := longest_of_none 0 fun terms mem =>
    never terms mem limit _ p (ordered_body p earlier)
  rw [symbol, eq, Along.rule, closed, if_neg Bool.false_ne_true, found]
  dsimp only
  rw [body]
  dsimp only
  rw [none]
  rfl

/-- Whether what is found, if anything is, ends before a place. -/
def EndsBefore {α : Type} (p : Nat) (o : Outcome α) : Prop :=
  ∃ found, o = some found ∧ ∀ x s, found = some (x, s) → s.1 < p

theorem EndsBefore.of_none {α : Type} {p : Nat} {o : Outcome α} (never : o = some none) : EndsBefore p o :=
  ⟨none, never, nofun⟩

/-- The longest of alternatives all of which end before a place does so too. -/
theorem longest_endsBefore {limit p : Nat} {call : Nat → Spot → Outcome Tree} {s : Spot}
    {alternatives : List (List Term)} (index : Nat)
    (each : ∀ terms ∈ alternatives, EndsBefore p (sequence g limit call terms s)) :
    EndsBefore p (longest g limit call s index alternatives) := by
  induction alternatives generalizing index with
  | nil => exact .of_none rfl
  | cons terms rest ih =>
    obtain ⟨⟨here, eq, before⟩, others⟩ := List.forall_mem_cons.1 each
    obtain ⟨later, eq', before'⟩ := ih (index + 1) others
    rw [longest, eq, eq']
    refine ⟨_, rfl, fun x s is => ?_⟩
    rcases here with _ | ⟨trees, s₁⟩ <;> rcases later with _ | ⟨found, s₂⟩
    · cases is
    · exact before' x s is
    · obtain ⟨-, rfl⟩ := Prod.mk.inj (Option.some.inj is)
      exact before trees s₁ rfl
    · unfold longer at is
      dsimp only [Option.map] at is
      split at is <;> obtain ⟨-, rfl⟩ := Prod.mk.inj (Option.some.inj is)
      · exact before' found s₂ rfl
      · exact before trees s₁ rfl

/-- Of alternatives all but one of which end before it the one is the longest. -/
theorem longest_of_only {limit : Nat} {call : Nat → Spot → Outcome Tree} {s s' : Spot}
    {alternatives : List (List Term)} {terms : List Term} {i : Nat} (index : Nat)
    (there : alternatives[i]? = some terms)
    (others : ∀ j terms', alternatives[j]? = some terms' → j ≠ i →
      EndsBefore s'.1 (sequence g limit call terms' s))
    (found : sequence g limit call terms s = some (some (trees, s'))) :
    longest g limit call s index alternatives = some (some ((index + i, trees), s')) := by
  induction alternatives generalizing i index with
  | nil => cases there
  | cons terms' rest ih =>
    cases i with
    | zero =>
      obtain rfl := Option.some.inj there
      obtain ⟨later, eq, before⟩ := longest_endsBefore (index + 1) fun terms' mem => by
        obtain ⟨j, at_⟩ := List.mem_iff_getElem?.1 mem
        exact others (j + 1) terms' at_ (Nat.succ_ne_zero j)
      rw [longest, found, eq]
      rcases later with _ | ⟨x, s₂⟩
      · rfl
      · have less := before x s₂ rfl
        dsimp only [Outcome.map, Option.map, longer]
        rw [if_neg (Nat.not_lt.2 (Nat.le_of_lt less)), Nat.add_zero]
    | succ i =>
      have later := ih (index + 1) there fun j terms' at_ ne =>
        others (j + 1) terms' at_ (fun same => ne (Nat.succ.inj same))
      obtain ⟨here, eq, before⟩ := others 0 terms' rfl (Nat.succ_ne_zero i).symm
      rw [longest, eq, later, Nat.add_right_comm]
      rcases here with _ | ⟨x, s₁⟩
      · rfl
      · dsimp only [Outcome.map, Option.map, longer]
        rw [if_pos (before x s₁ rfl)]
        rfl

/-- Whether terms are not found before tokens, or take fewer of them than a number. -/
def SeqLoses (g : Grammar) (depth base : Nat) (ts : List Term) (count : Nat) (tokens : List Token)
    (rank : Nat → Nat := fun id => id) : Prop :=
  ∀ limit call p, count < limit → Ordered g limit depth base p call rank →
    EndsBefore (p + count) (sequence g limit call ts (p, tokens))

theorem SeqFails.loses (never : SeqFails g depth base ts tokens rank) (count : Nat) :
    SeqLoses g depth base ts count tokens rank :=
  fun limit call p _ ordered => .of_none (never limit call p ordered)

/-- Terms that take fewer tokens lose. -/
theorem SeqReads.loses (reads : SeqReads g depth base ts tokens trees rest rank) {count : Nat}
    (fewer : tokens.length < count) : SeqLoses g depth base ts count (tokens ++ rest) rank := by
  intro limit call p enough ordered
  refine ⟨_, reads limit call p (by omega) ordered, fun x s is => ?_⟩
  obtain ⟨-, rfl⟩ := Prod.mk.inj (Option.some.inj is)
  exact Nat.add_lt_add_left fewer p

namespace RuleReads

theorem another {name type : String} {token : Token}
    (at_ : g.rules[id]? = some ⟨name, .aliasOf type⟩) (is : token.type = type)
    (known : isReserved type = false) :
    RuleReads g (depth + 1) id [token] (.leaf name none (some type) token) rest rank := by
  intro limit here p _ earlier
  have closed : here.contains id = false := Bool.eq_false_iff.2 fun mem =>
    Nat.lt_irrefl _ (earlier id (List.contains_iff_mem.1 mem))
  rw [Along.rule, closed, if_neg Bool.false_ne_true, at_]
  dsimp only
  rw [body]
  dsimp only
  rw [List.singleton_append, terminal_of_type is known]
  rfl

section

variable {name : String} {alternatives : List (List Term)} {terms : List Term} {i : Nat}
  (found : g.rules[id]? = some ⟨name, .choice alternatives⟩) (there : alternatives[i]? = some terms)
include found there

/-- A rule that is not open is found as the one alternative that is there. -/
theorem rule_of_only {limit p : Nat} {here : List Nat} (earlier : ∀ h ∈ here, rank h < rank id)
    (others : ∀ terms' ∈ alternatives.eraseIdx i, EndsBefore (p + tokens.length) (sequence g limit
      (fun id' s => Along.rule g limit depth (if s.1 = p then id :: here else []) id' s) terms'
      (p, tokens ++ rest)))
    (reads : SeqReads g depth id terms tokens trees rest rank) (short : tokens.length < limit) :
    Along.rule g limit (depth + 1) here id (p, tokens ++ rest)
      = some (some (.node name none (some i) trees, p + tokens.length, rest)) := by
  have closed : here.contains id = false := Bool.eq_false_iff.2 fun mem =>
    Nat.lt_irrefl _ (earlier id (List.contains_iff_mem.1 mem))
  have chosen := longest_of_only 0 there
    (fun j terms' at_ ne => others terms' (List.mem_eraseIdx_iff_getElem?.2 ⟨j, ne, at_⟩))
    (reads limit _ p short (ordered_body p earlier))
  rw [Along.rule, closed, if_neg Bool.false_ne_true, found]
  dsimp only
  rw [body]
  dsimp only
  rw [chosen, Nat.zero_add]
  rfl

/-- **A rule is found** if the terms of one of its alternatives are, and all others lose. -/
theorem winning (others : ∀ terms' ∈ alternatives.eraseIdx i,
      SeqLoses g depth id terms' tokens.length (tokens ++ rest) rank)
    (reads : SeqReads g depth id terms tokens trees rest rank) :
    RuleReads g (depth + 1) id tokens (.node name none (some i) trees) rest rank :=
  fun limit _ p short earlier => rule_of_only found there earlier
    (fun terms' mem => others terms' mem limit _ p short (ordered_body p earlier)) reads short

/-- A rule is found if all but one of its alternatives are not there, and the terms of this one are
found. -/
theorem among (others : ∀ terms' ∈ alternatives.eraseIdx i, SeqFails g depth id terms' (tokens ++ rest) rank)
    (reads : SeqReads g depth id terms tokens trees rest rank) :
    RuleReads g (depth + 1) id tokens (.node name none (some i) trees) rest rank :=
  winning found there (fun terms' mem => (others terms' mem).loses _) reads

/-- A rule is found if all but one of its alternatives are ruled out by the next token, and the
terms of this one are found. -/
theorem alternative {type : String} (next : nextType (tokens ++ rest) = some type)
    (selected : selects g type depth id i) (reads : SeqReads g depth id terms tokens trees rest rank) :
    RuleReads g (depth + 1) id tokens (.node name none (some i) trees) rest rank := by
  intro limit here p short earlier
  refine rule_of_only found there earlier (fun terms' mem => ?_) reads short
  rw [selects, found] at selected
  have refused := List.all_eq_true.1 selected terms' mem
  rw [← next] at refused
  refine .of_none (sequence_of_refuses ?_ refused)
  exact fun id' refused => rule_of_refuses refused

end

/-- A rule with one alternative is found if the terms of this one are. -/
theorem only {name : String} {terms : List Term}
    (found : g.rules[id]? = some ⟨name, .choice [terms]⟩)
    (reads : SeqReads g depth id terms tokens trees rest rank) :
    RuleReads g (depth + 1) id tokens (.node name none (some 0) trees) rest rank :=
  among found (i := 0) rfl (List.forall_mem_nil _) reads

end RuleReads

end

end Polyglot.Along

namespace Polyglot.Grammar

/-- What is found for the rule that parsing starts from is the tree of a sentence. -/
theorem parseTokens_of_ruleReads {g : Grammar} {depth : Nat} {tokens : List Token} {t : Tree}
    {rank : Nat → Nat} (reads : Along.RuleReads g depth g.entry tokens t [] rank) :
    g.parseTokens tokens = .ok t := by
  have found := reads (tokens.length + 1) [] 0 (Nat.lt_succ_self _) nofun
  rw [List.append_nil] at found
  exact parseTokens_of_parseAlong (by rw [parseAlong, found]; rfl)

end Polyglot.Grammar
