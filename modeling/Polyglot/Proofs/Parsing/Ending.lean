import Mathlib.Data.List.Nodup
import Mathlib.Data.List.Perm.Subperm
import Polyglot.Proofs.Parsing.Memo

/-!
# The parser always stops

The parser goes down a bounded number of levels and makes a bounded number of passes through a
repetition, and at a bound it just goes on with what it has. So that it gives a result says nothing yet: the
bounds could be what ends it. This module looks at it while it runs. A *watched* parser is stopped at
a bound, without any result, and takes notes of what it does (`Watched.Event`): whenever a call of a rule goes to work,
which calls are open then; and after every repetition, at which places its passes have started.

The theorem is that no bound is ever met (`Grammar.parser_stops`). With any number of levels above rules times
places, and any number of passes above the number of tokens, the watched parser comes to its end, with the
result of the parser and always the same notes. They say why: open calls are distinct calls, so there are
only so many, and each pass starts further on than the one before.

All this rests on what the parser keeps (`Plain.Holds`). The calls that are marked are the open ones, so a call that
goes to work, as it is not marked, is none of them.
-/

namespace Polyglot.Watched

open Polyglot.Parser (State Step)
open Polyglot.Plain (Call Holds Follows Leads calls unopened)

/-- What is noted about a run. -/
inductive Event where
  /-- A call goes to work. These are the open calls, itself the first. -/
  | works (opened : List Call)
  /-- A repetition has come to its end. These are the places where its passes have started. -/
  | repeats (places : List Nat)
  deriving DecidableEq, Repr

/-- A step of the parser that is watched. Nothing comes of it if it is stopped, else what comes of the step,
and the notes. -/
abbrev Run (α : Type) := State → Option (Option α × State × List Event)

section

variable (g : Grammar) (tokens : Array Token) (passes : Nat) (call : Nat → Run Tree)

/-- A symbol. -/
def symbol : Symbol → Run Tree
  | .rule id, s => call id s
  | .terminal name, s =>
    let (token, s) := Parser.terminal tokens name s
    some (token.map Tree.ofToken, s, [])

/-- Passes through a repetition, after those in which `items` were found. -/
def rounds (parse : Run Tree) (multiplicity : Multiplicity) :
    Nat → List Tree → State → Option (List Tree × State × List Nat × List Event)
  | 0, _, _ => none
  | passes + 1, items, s =>
    let start := s.position
    match parse s with
    | none => none
    | some (none, s, notes) => some (items, Parser.moveTo start s, [start], notes)
    | some (some t, s, notes) =>
      let progressed := start < s.position
      let items :=
        if progressed || (multiplicity == .plus && items.isEmpty) then t :: items else items
      if !progressed || multiplicity == .optional then some (items, s, [start], notes)
      else (rounds parse multiplicity passes items s).map fun (items, s, places, more) =>
        (items, s, start :: places, notes ++ more)

/-- A repetition. -/
def repeated (parse : Run Tree) (multiplicity : Multiplicity) : Run (List Tree) := fun s =>
  (rounds parse multiplicity passes [] s).map fun (items, s, places, notes) =>
    (if multiplicity == .plus && items.isEmpty then none else some items.reverse, s,
      .repeats places :: notes)

/-- A term. -/
def term (t : Term) : Run Tree := fun s =>
  let parse := symbol tokens call t.symbol
  let found :=
    if t.multiplicity == .one then parse s
    else (repeated passes parse t.multiplicity s).map fun (items, s, notes) =>
      (items.map (.node (g.symbolName t.symbol ++ t.multiplicity.suffix) none none), s, notes)
  found.map fun (tree, s, notes) => (tree.map (Tree.withLabel t.label), s, notes)

/-- The terms of an alternative. -/
def sequence : List Term → Run (List Tree)
  | [], s => some (some [], s, [])
  | t :: ts, s =>
    match term g tokens passes call t s with
    | none => none
    | some (none, s, notes) => some (none, s, notes)
    | some (some tree, s, notes) =>
      (sequence ts s).map fun (trees, s, more) => (trees.map (tree :: ·), s, notes ++ more)

/-- The alternatives of a rule. -/
def longest (start : Nat) : Nat → List (List Term) → Option Parser.Candidate →
    State → Option (Option Parser.Candidate × State × List Event)
  | _, [], best, s => some (best, s, [])
  | index, terms :: rest, best, s =>
    match sequence g tokens passes call terms (Parser.moveTo start s) with
    | none => none
    | some (found, s, notes) =>
      let best := match found with
        | none => best
        | some children => Plain.better best ⟨index, children, s.position - start⟩
      (longest start (index + 1) rest best s).map fun (best, s, more) => (best, s, notes ++ more)

/-- The body of a rule. -/
def body (r : Rule) : Run Tree := fun s =>
  match r.body with
  | .aliasOf name =>
    let (token, s) := Parser.terminal tokens name s
    some (token.map (.leaf r.name none (some name)), s, [])
  | .choice alternatives =>
    let start := s.position
    (longest g tokens passes call start 0 alternatives none s).map fun
      | (none, s, notes) => (none, s, notes)
      | (some best, s, notes) =>
        (some (.node r.name none (some best.index) best.children),
          Parser.moveTo (start + best.consumed) s, notes)

end

/-- A rule, under open calls. -/
def rule (g : Grammar) (tokens : Array Token) (passes : Nat) : Nat → List Call → Nat → Run Tree
  | 0, _, _, _ => none
  | levels + 1, opened, id, s =>
    match s.memo[(id, s.position)]? with
    | some .inProgress => some (none, { s with hits := s.hits + 1 }, [])
    | some (.done none) => some (none, s, [])
    | some (.done (some (t, consumed))) => some (some t, Parser.moveTo (s.position + consumed) s, [])
    | none =>
      match g.rules[id]? with
      | none => some (none, s, [])
      | some r =>
        let start := s.position
        let hits := s.hits
        let opened := (id, start) :: opened
        let entered := { s with memo := s.memo.insert (id, start) .inProgress }
        (body g tokens passes (rule g tokens passes levels opened) r entered).map
          fun (result, s, notes) =>
            let s := if result.isNone then Parser.moveTo start s else s
            (result, Parser.remember id start hits result s, .works opened :: notes)

/-! ## What the notes say -/

/-- Whether a note is as it should be: open calls are distinct, of rules that there are and at places that
there are; and passes start further on each time. -/
def Event.Fine (g : Grammar) (tokens : List Token) : Event → Prop
  | works opened => opened.Nodup ∧ ∀ c ∈ opened, c.1 < g.rules.size ∧ c.2 ≤ tokens.length
  | repeats places => places.Pairwise (· < ·)

/-- Whether a watched step, from wherever it starts under open calls, comes to its end, does what the step
does, and leaves fine notes. -/
def Ends (g : Grammar) (tokens : List Token) (opened : List Call) {α : Type} (run : Run α) (step : Step α) :
    Prop :=
  ∀ s, Holds g tokens opened s → ∃ notes, run s = some ((step s).1, (step s).2, notes)
    ∧ ∀ e ∈ notes, e.Fine g tokens

section

variable {g : Grammar} {tokens : List Token} {opened : List Call} {passes : Nat}

theorem symbol_ends {call : Nat → Run Tree} {callStep : Nat → Step Tree}
    (ends : ∀ id, Ends g tokens opened (call id) (callStep id)) (x : Symbol) :
    Ends g tokens opened (symbol tokens.toArray call x) (Parser.symbol tokens.toArray callStep x) := by
  cases x with
  | rule id => exact ends id
  | terminal name => exact fun s _ => ⟨[], rfl, nofun⟩

/-- **Passes start further on each time**, so there are no more of them than tokens, and one. -/
theorem rounds_ends {parse : Run Tree} {step : Step Tree} {attempt : List Call → Nat → Plain.Attempt Tree}
    (ends : Ends g tokens opened parse step) (follows : Follows g tokens opened step attempt)
    (multiplicity : Multiplicity) (fuel : Nat) (items : List Tree) {s : State} (h : Holds g tokens opened s)
    (enough : tokens.length < s.position + passes) (enough' : tokens.length < s.position + fuel) :
    ∃ places notes, rounds parse multiplicity passes items s
        = some ((Parser.rounds step multiplicity fuel items s).1,
          (Parser.rounds step multiplicity fuel items s).2, places, notes)
      ∧ places.Pairwise (· < ·) ∧ (∀ p ∈ places, s.position ≤ p) ∧ ∀ e ∈ notes, e.Fine g tokens := by
  have inside := h.position_le
  induction passes generalizing fuel items s with
  | zero => omega
  | succ passes ih =>
    obtain ⟨fuel, rfl⟩ : ∃ n, fuel = n + 1 := ⟨fuel - 1, by omega⟩
    obtain ⟨notes, run, fine⟩ := ends s h
    have leads := follows s h
    have here : ∀ p ∈ [s.position], s.position ≤ p := by simp
    rw [rounds, Parser.rounds, run]
    rcases found : step s with ⟨_ | t, s'⟩ <;> rw [found] at leads <;> dsimp only
    · exact ⟨_, _, rfl, List.pairwise_singleton .., here, fine⟩
    · split
      · exact ⟨_, _, rfl, List.pairwise_singleton .., here, fine⟩
      · next goesOn =>
        have progress : s.position < s'.position := by
          simp only [Bool.or_eq_true, Bool.not_eq_true', decide_eq_false_iff_not, not_or] at goesOn
          omega
        have bound : tokens.length < s'.position + passes := by omega
        have bound' : tokens.length < s'.position + fuel := by omega
        obtain ⟨places, more, eq, sorted, later, fine'⟩ := ih fuel
          (if decide (s.position < s'.position) || (multiplicity == .plus && items.isEmpty) then t :: items
            else items) leads.holds bound bound' leads.holds.position_le
        refine ⟨s.position :: places, notes ++ more, by rw [eq]; rfl, ?_, ?_, ?_⟩
        · exact List.pairwise_cons.2 ⟨fun p mem => Nat.lt_of_lt_of_le progress (later p mem), sorted⟩
        · exact List.forall_mem_cons.2
            ⟨Nat.le_refl _, fun p mem => Nat.le_of_lt (Nat.lt_of_lt_of_le progress (later p mem))⟩
        · exact List.forall_mem_append.2 ⟨fine, fine'⟩

theorem repeated_ends {parse : Run Tree} {step : Step Tree}
    {attempt : List Call → Nat → Plain.Attempt Tree} (enough : tokens.length < passes)
    (ends : Ends g tokens opened parse step) (follows : Follows g tokens opened step attempt)
    (multiplicity : Multiplicity) :
    Ends g tokens opened (repeated passes parse multiplicity)
      (Parser.repeated tokens.toArray step multiplicity) := by
  intro s h
  have passing : tokens.length < s.position + passes := by omega
  obtain ⟨places, notes, run, sorted, -, fine⟩ :=
    rounds_ends ends follows multiplicity (tokens.length + 1) [] h passing (by omega)
  refine ⟨.repeats places :: notes, ?_, List.forall_mem_cons.2 ⟨sorted, fine⟩⟩
  rw [repeated, run, Parser.repeated]
  simp only [List.size_toArray, Option.map_some]
  split <;> rfl

section

variable {call : Nat → Run Tree} {callStep : Nat → Step Tree}
  {attempt : List Call → Nat → Nat → Plain.Attempt Tree} (enough : tokens.length < passes)
  (ends : ∀ id, Ends g tokens opened (call id) (callStep id))
  (follows : ∀ id, Follows g tokens opened (callStep id) (fun others => attempt others id))
include enough ends follows

theorem term_ends (t : Term) :
    Ends g tokens opened (term g tokens.toArray passes call t) (Parser.term g tokens.toArray callStep t) := by
  intro s h
  unfold term Parser.term
  dsimp only
  split
  · obtain ⟨notes, run, fine⟩ := symbol_ends ends t.symbol s h
    exact ⟨notes, by rw [run]; rfl, fine⟩
  · obtain ⟨notes, run, fine⟩ := repeated_ends enough (symbol_ends ends t.symbol)
      (Plain.follows_symbol follows t.symbol) t.multiplicity s h
    exact ⟨notes, by rw [run]; rfl, fine⟩

theorem sequence_ends (ts : List Term) :
    Ends g tokens opened (sequence g tokens.toArray passes call ts)
      (Parser.sequence g tokens.toArray callStep ts) := by
  induction ts with
  | nil => exact fun s _ => ⟨[], rfl, nofun⟩
  | cons t ts ih =>
    intro s h
    obtain ⟨notes, run, fine⟩ := term_ends enough ends follows t s h
    have leads := Plain.follows_term follows t s h
    rw [sequence, Parser.sequence, run]
    rcases found : Parser.term g tokens.toArray callStep t s with ⟨_ | tree, s'⟩ <;>
      rw [found] at leads <;> dsimp only
    · exact ⟨notes, rfl, fine⟩
    · obtain ⟨more, run', fine'⟩ := ih s' leads.holds
      refine ⟨notes ++ more, ?_, List.forall_mem_append.2 ⟨fine, fine'⟩⟩
      rw [run']
      rcases Parser.sequence g tokens.toArray callStep ts s' with ⟨_ | trees, s''⟩ <;> rfl

theorem longest_ends {start : Nat} (le : start ≤ tokens.length) (index : Nat)
    (alternatives : List (List Term)) (best : Option Parser.Candidate) {s : State}
    (h : Holds g tokens opened s) :
    ∃ notes, longest g tokens.toArray passes call start index alternatives best s
        = some ((Parser.longest g tokens.toArray callStep start index alternatives best s).1,
          (Parser.longest g tokens.toArray callStep start index alternatives best s).2, notes)
      ∧ ∀ e ∈ notes, e.Fine g tokens := by
  induction alternatives generalizing index best s with
  | nil => exact ⟨[], rfl, nofun⟩
  | cons terms rest ih =>
    obtain ⟨notes, run, fine⟩ := sequence_ends enough ends follows terms _ (h.moveTo le)
    have leads := Plain.follows_sequence follows terms _ (h.moveTo le)
    rw [longest, Parser.longest, run]
    rcases found : Parser.sequence g tokens.toArray callStep terms (Parser.moveTo start s)
      with ⟨_ | children, s'⟩ <;> rw [found] at leads <;> dsimp only
    · obtain ⟨more, run', fine'⟩ := ih (index + 1) best leads.holds
      exact ⟨notes ++ more, by rw [run']; rfl, List.forall_mem_append.2 ⟨fine, fine'⟩⟩
    · obtain ⟨more, run', fine'⟩ :=
        ih (index + 1) (Plain.better best ⟨index, children, s'.position - start⟩) leads.holds
      exact ⟨notes ++ more, by rw [run']; rfl, List.forall_mem_append.2 ⟨fine, fine'⟩⟩

theorem body_ends (r : Rule) :
    Ends g tokens opened (body g tokens.toArray passes call r)
      (Parser.body g tokens.toArray callStep r) := by
  intro s h
  rcases r with ⟨name, terminal | alternatives⟩
  · exact ⟨[], rfl, nofun⟩
  · obtain ⟨notes, run, fine⟩ := longest_ends enough ends follows h.position_le 0 alternatives none h
    refine ⟨notes, ?_, fine⟩
    dsimp only [body, Parser.body]
    rw [run]
    rcases Parser.longest g tokens.toArray callStep s.position 0 alternatives none s with ⟨_ | _, _⟩ <;> rfl

end

/-- **A call of a rule** comes to its end before it is out of levels, if there are more of them than calls that
are not open. A call that goes to work is none of the open ones. -/
theorem rule_ends (enough : tokens.length < passes) {levels depth : Nat}
    (allowed : unopened g tokens opened < levels) (allowed' : unopened g tokens opened < depth)
    (distinct : opened.Nodup) (known : ∀ c ∈ opened, c.1 < g.rules.size ∧ c.2 ≤ tokens.length) (id : Nat) :
    Ends g tokens opened (rule g tokens.toArray passes levels opened id)
      (Parser.rule g tokens.toArray depth id) := by
  induction levels generalizing depth opened id with
  | zero => exact absurd allowed (Nat.not_lt_zero _)
  | succ levels ih =>
    obtain ⟨depth, rfl⟩ : ∃ n, depth = n + 1 := ⟨depth - 1, by omega⟩
    intro s h
    rw [rule, Parser.rule]
    rcases met : s.memo[(id, s.position)]? with _ | _ | _ | ⟨t, consumed⟩ <;> dsimp only
    · rcases there : g.rules[id]? with _ | r <;> dsimp only
      · exact ⟨[], rfl, nofun⟩
      · have closed : (id, s.position) ∉ opened := by
          rw [← h.inProgress, met]
          simp
        have inside : id < g.rules.size := (Array.getElem?_eq_some_iff.1 there).1
        have less := Plain.unopened_cons_lt (Plain.mem_calls.2 ⟨inside, h.position_le⟩) closed
        have distinct' : ((id, s.position) :: opened).Nodup := List.nodup_cons.2 ⟨closed, distinct⟩
        have known' : ∀ c ∈ (id, s.position) :: opened, c.1 < g.rules.size ∧ c.2 ≤ tokens.length :=
          List.forall_mem_cons.2 ⟨⟨inside, h.position_le⟩, known⟩
        have fewer : unopened g tokens ((id, s.position) :: opened) < depth := by omega
        obtain ⟨notes, run, fine⟩ := body_ends enough
          (fun id' => ih (by omega) fewer distinct' known' id')
          (fun id' => Plain.follows_rule fewer id') r _ (h.enter met)
        refine ⟨.works ((id, s.position) :: opened) :: notes, ?_,
          List.forall_mem_cons.2 ⟨⟨distinct', known'⟩, fine⟩⟩
        rw [run]
        rfl
    · exact ⟨[], rfl, nofun⟩
    · exact ⟨[], rfl, nofun⟩
    · exact ⟨[], rfl, nofun⟩

end

/-- Distinct calls are no more than there are. -/
theorem length_le_of_fine {g : Grammar} {tokens : List Token} {opened : List Call}
    (fine : (Event.works opened).Fine g tokens) : opened.length ≤ g.rules.size * (tokens.length + 1) := by
  have subset : opened ⊆ calls g tokens := fun c mem => Plain.mem_calls.2 (fine.2 c mem)
  have count : (calls g tokens).length = g.rules.size * (tokens.length + 1) := by
    simp [calls, List.length_flatMap, List.map_const']
  rw [← count]
  exact (List.subperm_of_subset fine.1 subset).length_le

end Polyglot.Watched

namespace Polyglot.Grammar

open Watched

/-- **The parser always stops.** For every grammar and all tokens, however many more levels it may go down than rules
times places, and however many more passes it may make than there are tokens, it comes to its end without meeting a
bound, with the result that it has. While a call is at work, the open calls are distinct, of rules that there are and
at places that there are, and so no more than rules times places. And in every repetition each pass but
the last has moved on. -/
theorem parser_stops (g : Grammar) (tokens : List Token) (levels passes : Nat) :
    ∃ notes, Watched.rule g tokens.toArray (tokens.length + 1 + passes)
          (g.rules.size * (tokens.length + 1) + 1 + levels) [] g.entry {}
        = some ((Parser.rule g tokens.toArray (Parser.depthBound g tokens.toArray) g.entry {}).1,
            (Parser.rule g tokens.toArray (Parser.depthBound g tokens.toArray) g.entry {}).2, notes)
      ∧ (∀ opened, .works opened ∈ notes → opened.Nodup
          ∧ (∀ c ∈ opened, c.1 < g.rules.size ∧ c.2 ≤ tokens.length)
          ∧ opened.length ≤ g.rules.size * (tokens.length + 1))
      ∧ ∀ places, .repeats places ∈ notes → places.Pairwise (· < ·) := by
  have fewer := unopened_lt_depthBound g tokens
  have bound : Parser.depthBound g tokens.toArray = g.rules.size * (tokens.length + 1) + 1 := rfl
  have enough : tokens.length < tokens.length + 1 + passes := by omega
  obtain ⟨notes, run, fine⟩ := rule_ends enough
    (Nat.lt_of_lt_of_le (bound ▸ fewer) (Nat.le_add_right ..)) fewer List.nodup_nil nofun g.entry {}
    (holds_start g tokens)
  refine ⟨notes, run, fun opened mem => ?_, fun places mem => fine _ mem⟩
  have this := fine _ mem
  exact ⟨this.1, this.2, length_le_of_fine this⟩

end Polyglot.Grammar
