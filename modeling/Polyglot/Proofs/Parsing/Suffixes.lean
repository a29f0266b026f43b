import Polyglot.Proofs.Parsing.Memo

/-!
# Parsing along the tokens

The parser once more, in a form that can be computed in proofs. It goes along the list of
tokens instead of looking up places in it, remembers nothing, and is a recursion on a
*depth*. Where the depth is too small, or a terminal that nothing is read for is asked
for, there is no answer. Otherwise the answer is that of the parser
(`Grammar.parseTokens_of_parseAlong`).

Of the open calls it keeps only the rules that were called at the current place. These are
the only ones that a call can meet: a call is never at an earlier place than those it was
made by.
-/

namespace Polyglot.Along

open Polyglot.Plain (Attempt)

/-- A place, and the tokens from there on. -/
abbrev Spot := Nat × List Token

/-- What comes of trying something at a place: nothing is known; or it is known that it is
not there, or what is there. -/
abbrev Outcome (α : Type) := Option (Option (α × Spot))

namespace Outcome

variable {α β : Type}

/-- The outcome with something else made of what is there. -/
def map (f : α → β) (o : Outcome α) : Outcome β :=
  Option.map (Option.map fun (x, s) => (f x, s)) o

/-- The outcome followed by another one. -/
def andThen (o : Outcome α) (f : α → Spot → Outcome β) : Outcome β :=
  match o with
  | none => none
  | some none => some none
  | some (some (x, s)) => f x s

end Outcome

/-- What comes of a terminal. -/
def terminal (name : String) (s : Spot) : Outcome Token :=
  if isReserved name then none
  else
    match s.2 with
    | [] => some none
    | t :: rest => if t.type == name then some (some (t, s.1 + 1, rest)) else some none

section

variable (g : Grammar) (limit : Nat) (call : Nat → Spot → Outcome Tree)

/-- What comes of a symbol, given what comes of calls of rules. -/
def symbol : Symbol → Spot → Outcome Tree
  | .rule id, s => call id s
  | .terminal name, s => (terminal name s).map Tree.ofToken

/-- As many rounds as there are, if `first` from the first round on. -/
def rounds (parse : Spot → Outcome Tree) (multiplicity : Multiplicity) :
    Nat → Bool → Spot → Outcome (List Tree)
  | 0, _, s => some (some ([], s))
  | fuel + 1, first, s =>
    match parse s with
    | none => none
    | some none => some (some ([], s))
    | some (some (t, next)) =>
      if next.1 ≤ s.1 then
        some (some (if multiplicity == .plus && first then [t] else [], next))
      else if multiplicity = .optional then some (some ([t], next))
      else (rounds parse multiplicity fuel false next).map (t :: ·)

/-- What comes of a repetition. -/
def repeated (parse : Spot → Outcome Tree) (multiplicity : Multiplicity) (s : Spot) :
    Outcome (List Tree) :=
  (rounds parse multiplicity limit true s).andThen fun items next =>
    if multiplicity == .plus && items.isEmpty then some none else some (some (items, next))

/-- What comes of a term. -/
def term (t : Term) (s : Spot) : Outcome Tree :=
  let parse := symbol call t.symbol
  let found :=
    if t.multiplicity = .one then parse s
    else (repeated limit parse t.multiplicity s).map
      (.node (g.symbolName t.symbol ++ t.multiplicity.suffix) none none)
  found.map (Tree.withLabel t.label)

/-- What comes of terms one after the other. -/
def sequence : List Term → Spot → Outcome (List Tree)
  | [], s => some (some ([], s))
  | t :: ts, s =>
    (term g limit call t s).andThen fun tree next => (sequence ts next).map (tree :: ·)

/-- The one of two alternatives that takes more, the first if they take the same. -/
def longer : Option ((Nat × List Tree) × Spot) → Option ((Nat × List Tree) × Spot) →
    Option ((Nat × List Tree) × Spot)
  | none, later => later
  | some earlier, none => some earlier
  | some earlier, some later => if earlier.2.1 < later.2.1 then some later else some earlier

/-- The alternative that takes the most tokens, and of several the first. -/
def longest (s : Spot) : Nat → List (List Term) → Outcome (Nat × List Tree)
  | _, [] => some none
  | index, terms :: rest =>
    match (sequence g limit call terms s).map (index, ·) with
    | none => none
    | some this => Option.map (longer this) (longest s (index + 1) rest)

/-- What comes of the body of a rule. -/
def body (r : Rule) (s : Spot) : Outcome Tree :=
  match r.body with
  | .aliasOf name => (terminal name s).map (.leaf r.name none (some name))
  | .choice alternatives =>
    (longest g limit call s 0 alternatives).map fun (index, children) =>
      .node r.name none (some index) children

end

/-- What comes of calling a rule, given the rules that were called at the same place. -/
def rule (g : Grammar) (limit : Nat) : Nat → List Nat → Nat → Spot → Outcome Tree
  | 0, _, _, _ => none
  | depth + 1, here, id, s =>
    if here.contains id then some none
    else
      match g.rules[id]? with
      | none => some none
      | some r =>
        body g limit
          (fun id' s' => rule g limit depth (if s'.1 = s.1 then id :: here else []) id' s') r s

end Polyglot.Along

namespace Polyglot.Grammar

/-- The tree of a sentence, if the depth is enough to find it. -/
def parseAlong (g : Grammar) (depth : Nat) (tokens : List Token) : Option Tree :=
  match Along.rule g (tokens.length + 1) depth [] g.entry (0, tokens) with
  | some (some (t, s)) => if s.2.isEmpty then some t else none
  | _ => none

end Polyglot.Grammar

namespace Polyglot.Along

open Polyglot.Plain (Attempt)

/-! ## The two parsers agree -/

/-- Whether a place is one in a list of tokens, not before another one. -/
structure Within (tokens : List Token) (start : Nat) (s : Spot) : Prop where
  /-- The tokens are those from the place on. -/
  rest : s.2 = tokens.drop s.1
  /-- The place is not before the other. -/
  after : start ≤ s.1
  /-- The place is not after the end. -/
  before : s.1 ≤ tokens.length

/-- What is not before a place that is not before another one. -/
theorem Within.trans {tokens : List Token} {start : Nat} {s s' : Spot}
    (first : Within tokens start s) (second : Within tokens s.1 s') : Within tokens start s' :=
  ⟨second.rest, Nat.le_trans first.after second.after, second.before⟩

/-- Whether what is known agrees with what comes of it. -/
def Agrees (tokens : List Token) (start : Nat) {α : Type} (o : Outcome α) (a : Attempt α) :
    Prop :=
  ∀ r, o = some r →
    a.result = r.map (fun (x, s) => (x, s.1)) ∧ ∀ x s, r = some (x, s) → Within tokens start s

namespace Agrees

variable {tokens : List Token} {start : Nat} {α β : Type} {o : Outcome α} {a : Attempt α}

theorem none (eq : a.result = Option.none) : Agrees tokens start (some Option.none) a := by
  intro r eq'
  obtain rfl := Option.some.inj eq'
  exact ⟨eq, nofun⟩

theorem some {x : α} {s : Spot} (eq : a.result = Option.some (x, s.1))
    (within : Within tokens start s) : Agrees tokens start (Option.some (Option.some (x, s))) a := by
  intro r eq'
  obtain rfl := Option.some.inj eq'
  refine ⟨eq, fun x s eq => ?_⟩
  obtain ⟨-, rfl⟩ := Prod.mk.inj (Option.some.inj eq)
  exact within

theorem map (h : Agrees tokens start o a) (f : α → β) :
    Agrees tokens start (o.map f) (a.map f) := by
  intro r eq
  obtain ⟨r, rfl, rfl⟩ := Option.map_eq_some_iff.1 eq
  obtain ⟨result, within⟩ := h r rfl
  cases r with
  | none => exact ⟨by simp [result], nofun⟩
  | some found =>
    refine ⟨by simp [result], fun x s eq => ?_⟩
    obtain ⟨-, rfl⟩ := Prod.mk.inj (Option.some.inj eq)
    exact within found.1 found.2 rfl

theorem andThen (h : Agrees tokens start o a) {f : α → Spot → Outcome β}
    {f' : α → Nat → Attempt β}
    (next : ∀ x s, Within tokens start s → Agrees tokens s.1 (f x s) (f' x s.1)) :
    Agrees tokens start (o.andThen f) (a.andThen f') := by
  intro r eq
  cases o with
  | none => cases eq
  | some found =>
    obtain ⟨result, within⟩ := h found rfl
    cases found with
    | none =>
      obtain rfl := Option.some.inj eq
      exact ⟨by simp [Attempt.andThen, result], nofun⟩
    | some found =>
      obtain ⟨x, s⟩ := found
      have here := within x s rfl
      obtain ⟨result', within'⟩ := next x s here r eq
      refine ⟨by simp [Attempt.andThen, result, result'], fun y s' eq => ?_⟩
      exact here.trans (within' y s' eq)

end Agrees

section

variable {tokens : List Token} {start : Nat} {s : Spot} {g : Grammar}
  {call : Nat → Spot → Outcome Tree} {call' : Nat → Nat → Attempt Tree}

theorem terminal_agrees (name : String) (within : Within tokens start s) :
    Agrees tokens s.1 (terminal name s) (Plain.terminal tokens name s.1) := by
  unfold terminal isReserved Plain.terminal
  by_cases empty : name = emptyTerminal
  · simp only [empty, beq_self_eq_true, Bool.true_or, ↓reduceIte]
    nofun
  by_cases ending : name = endTerminal
  · simp only [ending, beq_self_eq_true, Bool.or_true, ↓reduceIte]
    nofun
  simp only [beq_eq_false_iff_ne.2 empty, beq_eq_false_iff_ne.2 ending, empty, ending,
    Bool.or_self, Bool.false_eq_true, ↓reduceIte]
  obtain ⟨place, rest⟩ := s
  obtain ⟨rest_eq, after, before⟩ := within
  dsimp only at rest_eq after before ⊢
  subst rest_eq
  split
  · rename_i none
    refine .none ?_
    have : tokens[place]? = Option.none := List.getElem?_eq_none (List.drop_eq_nil_iff.1 none)
    simp [this]
  · rename_i t rest cons
    have lt : place < tokens.length := by
      refine Nat.lt_of_not_le fun ge => ?_
      rw [List.drop_eq_nil_of_le ge] at cons
      cases cons
    rw [List.drop_eq_getElem_cons lt] at cons
    obtain ⟨rfl, rfl⟩ := List.cons.inj cons
    split
    · rename_i same
      exact .some (by simp [lt, beq_iff_eq.1 same]) ⟨rfl, Nat.le_succ _, lt⟩
    · rename_i other
      exact .none (by simpa [lt] using other)

variable (calls : ∀ id s, Within tokens start s → Agrees tokens s.1 (call id s) (call' id s.1))
include calls

theorem symbol_agrees (symbol : Symbol) (within : Within tokens start s) :
    Agrees tokens s.1 (Along.symbol call symbol s) (Plain.symbol tokens call' symbol s.1) := by
  cases symbol with
  | rule id => exact calls id s within
  | terminal name => exact (terminal_agrees name within).map _

omit calls in
theorem rounds_agrees {parse : Spot → Outcome Tree} {parse' : Nat → Attempt Tree}
    (parses : ∀ s, Within tokens start s → Agrees tokens s.1 (parse s) (parse' s.1))
    (multiplicity : Multiplicity) (fuel : Nat) (first : Bool) (within : Within tokens start s) :
    Agrees tokens s.1 (rounds parse multiplicity fuel first s)
      (Plain.rounds parse' multiplicity fuel first s.1) := by
  induction fuel generalizing first s with
  | zero => exact .some rfl ⟨within.rest, Nat.le_refl _, within.before⟩
  | succ fuel ih =>
    unfold rounds Plain.rounds
    have round := parses s within
    cases found : parse s with
    | none =>
      intro r eq
      cases eq
    | some r =>
      obtain ⟨result, next⟩ := round r found
      cases r with
      | none =>
        refine .some ?_ ⟨within.rest, Nat.le_refl _, within.before⟩
        simp [result]
      | some r =>
        obtain ⟨t, s'⟩ := r
        have there := next t s' rfl
        simp only [result, Option.map_some]
        split
        · exact .some rfl there
        split
        · exact .some rfl there
        · have more : Agrees tokens s.1
              ((parse s).andThen fun t next =>
                (rounds parse multiplicity fuel false next).map (t :: ·))
              ((parse' s.1).andThen fun t next =>
                (Plain.rounds parse' multiplicity fuel false next).map (t :: ·)) :=
            round.andThen fun t next inside => (ih false (within.trans inside)).map (t :: ·)
          rwa [found] at more

omit calls in
theorem repeated_agrees {parse : Spot → Outcome Tree} {parse' : Nat → Attempt Tree}
    (parses : ∀ s, Within tokens start s → Agrees tokens s.1 (parse s) (parse' s.1))
    (multiplicity : Multiplicity) (within : Within tokens start s) :
    Agrees tokens s.1 (repeated (tokens.length + 1) parse multiplicity s)
      (Plain.repeated tokens parse' multiplicity s.1) := by
  have all := rounds_agrees parses multiplicity (tokens.length + 1) true within
  unfold repeated Plain.repeated
  cases found : rounds parse multiplicity (tokens.length + 1) true s with
  | none => nofun
  | some r =>
    obtain ⟨result, inside⟩ := all r found
    cases r with
    | none => exact .none (by simp [result])
    | some r =>
      obtain ⟨items, next⟩ := r
      show Agrees tokens s.1 (if _ then _ else _) _
      split
      · rename_i bad
        exact .none (by simpa [result] using bad)
      · rename_i good
        exact .some (by simpa [result, Decidable.imp_iff_not_or] using good) (inside items next rfl)

theorem term_agrees (t : Term) (within : Within tokens start s) :
    Agrees tokens s.1 (term g (tokens.length + 1) call t s) (Plain.term g tokens call' t s.1) := by
  unfold term Plain.term
  refine Agrees.map ?_ _
  split
  · exact symbol_agrees calls t.symbol within
  · exact (repeated_agrees (fun s => symbol_agrees calls t.symbol) t.multiplicity within).map _

theorem sequence_agrees (ts : List Term) (within : Within tokens start s) :
    Agrees tokens s.1 (sequence g (tokens.length + 1) call ts s)
      (Plain.sequence g tokens call' ts s.1) := by
  induction ts generalizing s with
  | nil => exact .some rfl ⟨within.rest, Nat.le_refl _, within.before⟩
  | cons t ts ih =>
    exact (term_agrees calls t within).andThen fun tree next inside =>
      (ih (within.trans inside)).map (tree :: ·)

theorem longest_agrees (index : Nat) (alternatives : List (List Term))
    (within : Within tokens start s) :
    Agrees tokens s.1 (longest g (tokens.length + 1) call s index alternatives)
      (Plain.longest g tokens call' s.1 index alternatives) := by
  induction alternatives generalizing index with
  | nil => exact .none rfl
  | cons terms rest ih =>
    have this := (sequence_agrees calls terms within (g := g)).map (index, ·)
    unfold longest
    cases found : (sequence g (tokens.length + 1) call terms s).map (index, ·) with
    | none => nofun
    | some earlier =>
      obtain ⟨result, inside⟩ := this earlier found
      cases found' : longest g (tokens.length + 1) call s (index + 1) rest with
      | none => nofun
      | some later =>
        obtain ⟨result', inside'⟩ := ih (index + 1) later found'
        unfold Plain.longest
        intro r eq
        obtain rfl := Option.some.inj eq
        dsimp only
        rw [result, result']
        cases earlier with
        | none => exact ⟨by cases later <;> rfl, inside'⟩
        | some earlier =>
          cases later with
          | none => exact ⟨rfl, inside⟩
          | some later =>
            simp only [longer, Plain.longer, Option.map_some]
            split
            · exact ⟨rfl, inside'⟩
            · exact ⟨rfl, inside⟩

theorem body_agrees (r : Rule) (within : Within tokens start s) :
    Agrees tokens s.1 (body g (tokens.length + 1) call r s) (Plain.body g tokens call' r s.1) := by
  unfold body Plain.body
  cases r.body with
  | aliasOf name => exact (terminal_agrees name within).map _
  | choice alternatives => exact (longest_agrees calls 0 alternatives within).map _

end

/-- **Calls of rules** come to the same, as long as the rules in hand are those that are
open at the place, and no call is open at a later place. -/
theorem rule_agrees (g : Grammar) (tokens : List Token) (depth : Nat) {opened : List Plain.Call}
    {here : List Nat} {s : Spot} (within : Within tokens 0 s)
    (meets : ∀ id, (id, s.1) ∈ opened ↔ id ∈ here) (past : ∀ c ∈ opened, c.2 ≤ s.1) (id : Nat) :
    Agrees tokens s.1 (rule g (tokens.length + 1) depth here id s)
      (Plain.rule g tokens opened id s.1) := by
  induction depth generalizing opened here s id with
  | zero => nofun
  | succ depth ih =>
    unfold rule Plain.rule
    by_cases isOpen : here.contains id
    · have mem := (meets id).2 (List.contains_iff_mem.1 isOpen)
      rw [if_pos isOpen, dif_neg fun h => h.2 mem]
      exact .none rfl
    · have closed : (id, s.1) ∉ opened := fun mem =>
        isOpen (List.contains_iff_mem.2 ((meets id).1 mem))
      rw [if_neg isOpen]
      cases found : g.rules[id]? with
      | none =>
        have unknown : ¬ id < g.rules.size := Nat.not_lt.2 (Array.getElem?_eq_none_iff.1 found)
        rw [dif_neg fun h => unknown (Plain.mem_calls.1 h.1).1]
        exact .none rfl
      | some r =>
        have known : id < g.rules.size := (Array.getElem?_eq_some_iff.1 found).1
        rw [dif_pos ⟨Plain.mem_calls.2 ⟨known, within.before⟩, closed⟩]
        refine body_agrees (?_ : ∀ id' s', Within tokens s.1 s' → _) r
          ⟨within.rest, Nat.le_refl _, within.before⟩
        intro id' s' inside
        -- at the same place one more rule is open, at a later one none
        refine ih ⟨inside.rest, Nat.zero_le _, inside.before⟩ (fun other => ?_) (fun c mem => ?_) id'
        · split
          · rename_i same
            rw [same, List.mem_cons, List.mem_cons, meets, Prod.mk.injEq, and_iff_left rfl]
          · rename_i moved
            refine iff_of_false (fun mem => ?_) List.not_mem_nil
            rcases List.mem_cons.1 mem with eq | mem
            · exact moved (Prod.mk.inj eq).2
            · exact moved (Nat.le_antisymm (past _ mem) inside.after)
        · rcases List.mem_cons.1 mem with rfl | mem
          · exact inside.after
          · exact Nat.le_trans (past c mem) inside.after

end Polyglot.Along

namespace Polyglot.Grammar

/-- **What is found along the tokens** is what the parser finds. -/
theorem parseTokens_of_parseAlong {g : Grammar} {depth : Nat} {tokens : List Token} {t : Tree}
    (found : g.parseAlong depth tokens = some t) : g.parseTokens tokens = .ok t := by
  unfold parseAlong at found
  split at found
  · rename_i t' s eq
    split at found
    · rename_i ended
      obtain rfl := Option.some.inj found
      have start : Along.Within tokens 0 (0, tokens) := ⟨rfl, Nat.le_refl _, Nat.zero_le _⟩
      have meets (id : Nat) : (id, 0) ∈ ([] : List Plain.Call) ↔ id ∈ ([] : List Nat) :=
        iff_of_false List.not_mem_nil List.not_mem_nil
      obtain ⟨result, inside⟩ := Along.rule_agrees g tokens depth start meets nofun g.entry _ eq
      have within := inside _ _ rfl
      rw [within.rest, List.isEmpty_iff, List.drop_eq_nil_iff] at ended
      rw [parseTokens_eq_parsePlainly, parsePlainly, Plain.verdict]
      simp only [result, Option.map_some, Nat.not_lt.2 ended, ↓reduceIte]
    · cases found
  · cases found

end Polyglot.Grammar
