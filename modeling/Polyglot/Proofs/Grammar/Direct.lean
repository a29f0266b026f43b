import Mathlib
import Polyglot.Proofs.Grammar.Groups
import Polyglot.Proofs.Parsing.Memo

/-!
# Groups in their places

A grammar with groups can be followed as it is written: a group is tried where it stands, with the
same choice among its alternatives as a rule has, and nothing is made of it beforehand
(`Direct.rule`). This is a recursion on the declarations and on a depth, since nothing says that it
ends; where the depth is not enough, nothing is known.

Building a grammar makes rules of groups, and those rules are called, remembered, and refused when
they are called from within themselves. That makes no difference as long as nothing is refused
(`build_matches`): as long as the parser meets no rule that is in progress, it takes as much and
chooses as it should.

**How the parser is followed.** What is remembered of a rule is what it comes to from some depth on
(`Remembers`), where a rule that was made for a group comes to what the group does (`Means`). A step
that meets no rule in progress keeps it so, and finds what is there (`Quiet`).
-/

namespace Polyglot

/-! ## Trying declarations -/

namespace Direct

/-- What comes of trying something at a place: nothing is known; or it is known that it is not there, or
where it ends. -/
abbrev Outcome := Option (Option Nat)

/-- Where a terminal ends, if it is there. -/
def terminal (tokens : List Token) (name : String) (place : Nat) : Option Nat :=
  if name = emptyTerminal then some place
  else if name = endTerminal then if place = tokens.length then some place else none
  else if tokens[place]?.any (·.type == name) then some (place + 1) else none

/-- Where something ends that is tried again and again, as long as something is taken, up to a count: there
are no more rounds than tokens. -/
def runs (trial : Nat → Outcome) : Nat → Nat → Option Nat
  | 0, place => some place
  | count + 1, place =>
    match trial place with
    | none => none
    | some none => some place
    | some (some next) => if place < next then runs trial count next else some next

/-- What comes of trying something as often as a multiplicity says. -/
def times (tokens : List Token) (trial : Nat → Outcome) (multiplicity : Multiplicity) (place : Nat) :
    Outcome :=
  match multiplicity with
  | .one => trial place
  | .optional => (trial place).map fun found => some (found.getD place)
  | .star => (runs trial (tokens.length + 1) place).map some
  | .plus =>
    match trial place with
    | some (some next) => (runs trial tokens.length next).map some
    | other => other

/-- The one of two alternatives that ends later, the first if they end at the same place. -/
def longer : Option (Nat × Nat) → Option (Nat × Nat) → Option (Nat × Nat)
  | none, later => later
  | some earlier, none => some earlier
  | some earlier, some later => if earlier.2 < later.2 then some later else some earlier

section

variable (tokens : List Token) (call : String → Nat → Outcome)

mutual

/-- What comes of a phrase, given what comes of calls of rules. -/
def phrase : Phrase → Nat → Outcome
  | .rule name multiplicity _, place => times tokens (call name) multiplicity place
  | .terminal name multiplicity _, place =>
    times tokens (fun place => some (terminal tokens name place)) multiplicity place
  | .group alternatives multiplicity _, place =>
    times tokens (fun place => (longest alternatives 0 place).map (Option.map Prod.snd)) multiplicity place

/-- What comes of phrases one after the other. -/
def sequence : List Phrase → Nat → Outcome
  | [], place => some (some place)
  | p :: ps, place =>
    match phrase p place with
    | some (some next) => sequence ps next
    | other => other

/-- The alternative that takes the most tokens, and of several the first: its number, and where it
ends. The first of the list has the number `index`. -/
def longest : List (List Phrase) → Nat → Nat → Option (Option (Nat × Nat))
  | [], _, _ => some none
  | ps :: rest, index, place =>
    match sequence ps place, longest rest (index + 1) place with
    | some this, some others => some (longer (this.map (index, ·)) others)
    | _, _ => none

end

end

/-- What comes of the rule with a name, down to a depth: the number of the alternative if it has
alternatives, and where it ends. -/
def rule (ds : List Declaration) (tokens : List Token) :
    Nat → String → Nat → Option (Option (Option Nat × Nat))
  | 0, _, _ => none
  | depth + 1, name, place =>
    match ds.find? (·.name == name) with
    | none => some none
    | some (.aliasOf _ type) => some ((terminal tokens type place).map (none, ·))
    | some (.rule _ alternatives) =>
      (longest tokens (fun name place => (rule ds tokens depth name place).map (Option.map Prod.snd))
        alternatives 0 place).map (Option.map fun (index, next) => (some index, next))

/-- Where the rule with a name ends, down to a depth. -/
def call (ds : List Declaration) (tokens : List Token) (depth : Nat) (name : String) (place : Nat) :
    Outcome :=
  (rule ds tokens depth name place).map (Option.map Prod.snd)

/-- Whether tokens are those of a sentence, down to a depth. -/
def accepts (ds : List Declaration) (name : String) (tokens : List Token) (depth : Nat) : Option Bool :=
  (call ds tokens depth name 0).map (· == some tokens.length)

/-! ## Following the parser -/

open Filter
open Polyglot.Parser (State Step Memo)
open Polyglot.Plain (Attempt Call Follows Holds)
open Polyglot.Grammar (LowersAll LowersBranches LowersGroup Lowers IsLowering)

section

variable (ds : List Declaration) (g : Grammar) (tokens : List Token)

/-- What calls of a rule come to, down to a depth: a rule for a declaration to what the declaration does,
and a rule for a group to what the group does. -/
inductive Means : Nat → (Nat → Nat → Option (Option (Option Nat × Nat))) → Prop
  /-- A rule for a declaration. -/
  | declared {id : Nat} {d : Declaration} : ds[id]? = some d →
      Means id fun depth place => rule ds tokens depth d.name place
  /-- A rule for a group. -/
  | group {id : Nat} {alternatives : List (List Phrase)} :
      LowersGroup ds g.rules ds.length id alternatives →
      Means id fun depth place => (longest tokens (call ds tokens depth) alternatives 0 place).map
        (Option.map fun (index, next) => (some index, next))

/-- Whether what is remembered is what calls come to. -/
def Remembers (s : State) : Prop :=
  ∀ (id place : Nat) result f, s.memo[(id, place)]? = some (Memo.done result) → Means ds g tokens id f →
    ∀ᶠ depth in atTop, f depth place = some (result.map fun (t, consumed) => (t.choice?, place + consumed))

variable (opened : List Call)

/-- Whether a step that meets no rule in progress remembers what is right, and finds what something comes
to. -/
def Quiet {α : Type} (step : Step α) (trial : Nat → Nat → Outcome) : Prop :=
  ∀ s, Holds g tokens opened s → Remembers ds g tokens s → (step s).2.hits = s.hits →
    Remembers ds g tokens (step s).2
      ∧ ∀ᶠ depth in atTop, trial depth s.position = some ((step s).1.map fun _ => (step s).2.position)

/-- Whether a call that meets no rule in progress remembers what is right, and finds what the rule comes
to. -/
def QuietCall (step : Step Tree) (f : Nat → Nat → Option (Option (Option Nat × Nat))) : Prop :=
  ∀ s, Holds g tokens opened s → Remembers ds g tokens s → (step s).2.hits = s.hits →
    Remembers ds g tokens (step s).2 ∧ ∀ᶠ depth in atTop,
      f depth s.position = some ((step s).1.map fun t => (t.choice?, (step s).2.position))

end

section

variable {ds : List Declaration} {g : Grammar} {tokens : List Token} {opened : List Call}

/-- The place of the parser does not matter to what it remembers. -/
theorem Remembers.moveTo {s : State} (h : Remembers ds g tokens s) (place : Nat) :
    Remembers ds g tokens (Parser.moveTo place s) := h

/-- If two steps together meet no rule in progress, neither does one of them. -/
theorem hits_eq_of_calm {s s₁ s₂ : State} (first : Plain.Passes g tokens opened s s₁)
    (rest : Plain.Passes g tokens opened s₁ s₂) (calm : s₂.hits = s.hits) :
    s₁.hits = s.hits ∧ s₂.hits = s₁.hits :=
  ⟨Nat.le_antisymm (calm ▸ rest.hits_le) first.hits_le, Nat.le_antisymm (calm ▸ first.hits_le) rest.hits_le⟩

/-! ### Terminals and repetitions -/

theorem terminal_eq (name : String) (place : Nat) :
    terminal tokens name place = (Plain.terminal tokens name place).result.map Prod.snd := by
  unfold terminal Plain.terminal
  split
  · rfl
  split
  · split <;> rfl
  · cases tokens[place]? with
    | none => rfl
    | some t => by_cases is : t.type == name <;> simp [Option.filter_some, is]

theorem terminal_quiet (name : String) :
    Quiet ds g tokens opened (Parser.terminal tokens.toArray name)
      (fun _ place => some (terminal tokens name place)) := by
  intro s h remembers _
  rw [Plain.parser_terminal_eq]
  refine ⟨remembers, .of_forall fun _ => ?_⟩
  dsimp only
  rw [terminal_eq]
  cases (Plain.terminal tokens name s.position).result <;> rfl

section

variable {parse : Step Tree} {multiplicity : Multiplicity} {count : Nat} {items : List Tree} {s s₁ : State}
  {t : Tree}

theorem rounds_of_none (run : parse s = (none, s₁)) :
    Parser.rounds parse multiplicity (count + 1) items s = (items, Parser.moveTo s.position s₁) := by
  rw [Parser.rounds, run]

/-- A round that takes something is followed by others. -/
theorem rounds_of_some (often : multiplicity ≠ .optional) (run : parse s = (some t, s₁))
    (progress : s.position < s₁.position) : Parser.rounds parse multiplicity (count + 1) items s
      = Parser.rounds parse multiplicity count (t :: items) s₁ := by
  simp [Parser.rounds, run, progress, often]

/-- A round that takes nothing is the last. -/
theorem rounds_of_still (run : parse s = (some t, s₁)) (still : ¬ s.position < s₁.position) :
    Parser.rounds parse multiplicity (count + 1) items s
      = (if multiplicity == .plus && items.isEmpty then t :: items else items, s₁) := by
  simp [Parser.rounds, run, still]

theorem repeated_eq (tokens : List Token) : Parser.repeated tokens.toArray parse multiplicity s
    = (if multiplicity == .plus && (Parser.rounds parse multiplicity (tokens.length + 1) [] s).1.isEmpty
        then none
        else some (Parser.rounds parse multiplicity (tokens.length + 1) [] s).1.reverse,
      (Parser.rounds parse multiplicity (tokens.length + 1) [] s).2) := by
  unfold Parser.repeated
  rw [List.size_toArray]
  dsimp only
  split <;> rfl

end

section

variable {parse : Step Tree} {trial : Nat → Nat → Outcome} {attempt : List Call → Nat → Attempt Tree}
  (quiet : Quiet ds g tokens opened parse trial) (follows : Follows g tokens opened parse attempt)
include quiet follows

/-- Rounds end where what is tried again and again ends. -/
theorem rounds_quiet {multiplicity : Multiplicity} (often : multiplicity ≠ .optional) (count : Nat)
    (items : List Tree) {s : State} (h : Holds g tokens opened s) (remembers : Remembers ds g tokens s)
    (calm : (Parser.rounds parse multiplicity count items s).2.hits = s.hits) :
    Remembers ds g tokens (Parser.rounds parse multiplicity count items s).2
      ∧ ∀ᶠ depth in atTop, runs (trial depth) count s.position
        = some (Parser.rounds parse multiplicity count items s).2.position := by
  induction count generalizing items s with
  | zero => exact ⟨remembers, .of_forall fun _ => rfl⟩
  | succ count ih =>
    have leads := follows s h
    have round := quiet s h remembers
    rcases run : parse s with ⟨_ | t, s₁⟩ <;> rw [run] at leads round
    · rw [rounds_of_none run] at calm ⊢
      obtain ⟨remembers, comes⟩ := round calm
      refine ⟨remembers, comes.mono fun depth eq => ?_⟩
      rw [runs, eq]
      rfl
    · by_cases progress : s.position < s₁.position
      · rw [rounds_of_some often run progress] at calm ⊢
        obtain ⟨_, -, rest⟩ := Plain.leads_rounds follows multiplicity count (t :: items) leads.holds
        obtain ⟨calm, calm'⟩ := hits_eq_of_calm leads.toPasses rest.toPasses calm
        obtain ⟨remembers, comes⟩ := round calm
        obtain ⟨remembers, comes'⟩ := ih (t :: items) leads.holds remembers calm'
        refine ⟨remembers, ?_⟩
        filter_upwards [comes, comes'] with depth eq eq'
        rw [runs, eq]
        dsimp only [Option.map_some]
        rw [if_pos progress, eq']
      · rw [rounds_of_still run progress] at calm ⊢
        obtain ⟨remembers, comes⟩ := round calm
        refine ⟨remembers, comes.mono fun depth eq => ?_⟩
        rw [runs, eq]
        dsimp only [Option.map_some]
        rw [if_neg progress]

omit quiet follows in
/-- What has been found once is not lost. -/
theorem rounds_ne_nil {multiplicity : Multiplicity} (count : Nat) {items : List Tree} (solid : items ≠ [])
    (s : State) : (Parser.rounds parse multiplicity count items s).1 ≠ [] := by
  induction count generalizing items s with
  | zero => exact solid
  | succ count ih =>
    rw [Parser.rounds]
    rcases parse s with ⟨_ | t, s₁⟩ <;> dsimp only
    · exact solid
    · have solid' : (if decide (s.position < s₁.position) || (multiplicity == .plus && items.isEmpty)
          then t :: items else items) ≠ [] := by
        split
        · exact List.cons_ne_nil _ _
        · exact solid
      split
      · exact solid'
      · exact ih solid' s₁

omit follows in
/-- What may stand there once, or not at all. -/
theorem optional_quiet :
    Quiet ds g tokens opened (Parser.repeated tokens.toArray parse .optional)
      (fun depth => times tokens (trial depth) .optional) := by
  intro s h remembers calm
  rw [repeated_eq] at calm ⊢
  have round := quiet s h remembers
  rcases run : parse s with ⟨_ | t, s₁⟩ <;> rw [run] at round
  · rw [rounds_of_none run] at calm ⊢
    obtain ⟨remembers, comes⟩ := round calm
    refine ⟨remembers, comes.mono fun depth eq => ?_⟩
    dsimp only [times]
    rw [eq]
    rfl
  · have eq : (Parser.rounds parse .optional (tokens.length + 1) [] s).2 = s₁ := by
      simp [Parser.rounds, run]
    rw [eq] at calm ⊢
    obtain ⟨remembers, comes⟩ := round calm
    refine ⟨remembers, comes.mono fun depth eq => ?_⟩
    dsimp only [times]
    rw [eq]
    rfl

/-- What stands there any number of times. -/
theorem star_quiet :
    Quiet ds g tokens opened (Parser.repeated tokens.toArray parse .star)
      (fun depth => times tokens (trial depth) .star) := by
  intro s h remembers calm
  rw [repeated_eq] at calm ⊢
  obtain ⟨remembers, comes⟩ := rounds_quiet quiet follows (by decide) (tokens.length + 1) [] h remembers calm
  refine ⟨remembers, comes.mono fun depth eq => ?_⟩
  dsimp only [times]
  rw [eq]
  rfl

/-- What stands there once at least. The first round counts even if it takes no token, but then it is the
last. -/
theorem plus_quiet :
    Quiet ds g tokens opened (Parser.repeated tokens.toArray parse .plus)
      (fun depth => times tokens (trial depth) .plus) := by
  intro s h remembers calm
  rw [repeated_eq] at calm ⊢
  have round := quiet s h remembers
  have leads := follows s h
  rcases run : parse s with ⟨_ | t, s₁⟩ <;> rw [run] at round leads
  · rw [rounds_of_none run] at calm ⊢
    obtain ⟨remembers, comes⟩ := round calm
    refine ⟨remembers, comes.mono fun depth eq => ?_⟩
    dsimp only [times]
    rw [eq]
    rfl
  by_cases progress : s.position < s₁.position
  · rw [rounds_of_some (by decide) run progress] at calm ⊢
    obtain ⟨_, -, rest⟩ := Plain.leads_rounds follows .plus tokens.length [t] leads.holds
    obtain ⟨calm, calm'⟩ := hits_eq_of_calm leads.toPasses rest.toPasses calm
    obtain ⟨remembers, comes⟩ := round calm
    obtain ⟨remembers, comes'⟩ := rounds_quiet quiet follows (by decide) tokens.length [t] leads.holds
      remembers calm'
    have solid : (Parser.rounds parse .plus tokens.length [t] s₁).1.isEmpty = false :=
      List.isEmpty_eq_false_iff.2 (rounds_ne_nil _ (List.cons_ne_nil _ _) s₁)
    refine ⟨remembers, ?_⟩
    filter_upwards [comes, comes'] with depth eq eq'
    dsimp only [times]
    rw [eq]
    dsimp only [Option.map_some]
    rw [eq', solid]
    rfl
  · rw [rounds_of_still run progress] at calm ⊢
    obtain ⟨remembers, comes⟩ := round calm
    refine ⟨remembers, comes.mono fun depth eq => ?_⟩
    have here : s₁.position = s.position :=
      Nat.le_antisymm (Nat.not_lt.1 progress) (leads.position_le rfl)
    -- trying again after it takes no token either
    have still : runs (trial depth) tokens.length s₁.position = some s₁.position := by
      cases tokens.length with
      | zero => rfl
      | succ count =>
        rw [runs, here, eq]
        dsimp only [Option.map_some]
        rw [if_neg progress, here]
    dsimp only [times]
    rw [eq]
    dsimp only [Option.map_some]
    rw [still]
    rfl

/-- A repetition ends where what is tried as often as its multiplicity says ends. -/
theorem repeated_quiet {multiplicity : Multiplicity} (often : multiplicity ≠ .one) :
    Quiet ds g tokens opened (Parser.repeated tokens.toArray parse multiplicity)
      (fun depth => times tokens (trial depth) multiplicity) := by
  cases multiplicity with
  | one => exact absurd rfl often
  | optional => exact optional_quiet quiet
  | star => exact star_quiet quiet follows
  | plus => exact plus_quiet quiet follows

end

/-! ### Phrases -/

/-- A group of one alternative, once, is the alternative. -/
theorem sequence_group (call : String → Nat → Outcome) (ps : List Phrase) (place : Nat) :
    sequence tokens call [.group [ps] .one none] place = sequence tokens call ps place := by
  rw [sequence, phrase]
  dsimp only [times]
  rw [longest, longest]
  rcases sequence tokens call ps place with _ | _ | next <;> rfl

section

variable {callStep : Nat → Step Tree} {attempt : List Call → Nat → Nat → Attempt Tree}
  (quiet : ∀ id f, Means ds g tokens id f → QuietCall ds g tokens opened (callStep id) f)
  (follows : ∀ id, Follows g tokens opened (callStep id) (fun others => attempt others id))
include quiet follows

omit quiet in
/-- A term ends where what it asks for does, as often as its multiplicity says. -/
theorem term_quiet {t : Term} {trial : Nat → Nat → Outcome}
    (quiet : Quiet ds g tokens opened (Parser.symbol tokens.toArray callStep t.symbol) trial) :
    Quiet ds g tokens opened (Parser.term g tokens.toArray callStep t)
      (fun depth => times tokens (trial depth) t.multiplicity) := by
  intro s h remembers calm
  unfold Parser.term at calm ⊢
  by_cases once : t.multiplicity = .one
  · simp only [once, beq_self_eq_true, ↓reduceIte] at calm ⊢
    obtain ⟨remembers, comes⟩ := quiet s h remembers calm
    refine ⟨remembers, comes.mono fun depth eq => ?_⟩
    rw [Option.map_map]
    exact eq
  · have often : (t.multiplicity == .one) = false := beq_eq_false_iff_ne.2 once
    simp only [often, Bool.false_eq_true, ↓reduceIte] at calm ⊢
    obtain ⟨remembers, comes⟩ :=
      repeated_quiet quiet (Plain.follows_symbol follows t.symbol) once s h remembers calm
    refine ⟨remembers, comes.mono fun depth eq => ?_⟩
    rw [Option.map_map, Option.map_map]
    exact eq

/-- What stands for a phrase ends where the phrase does. -/
theorem phrase_quiet {p : Phrase} {t : Term} (lowers : Lowers ds g.rules ds.length p t) :
    Quiet ds g tokens opened (Parser.term g tokens.toArray callStep t)
      (fun depth => phrase tokens (call ds tokens depth) p) := by
  cases lowers with
  | @rule name multiplicity label id d found named =>
    have calls : Quiet ds g tokens opened (callStep id) (fun depth => call ds tokens depth name) := by
      intro s h remembers calm
      obtain ⟨remembers, comes⟩ := quiet id _ (.declared found) s h remembers calm
      refine ⟨remembers, comes.mono fun depth eq => ?_⟩
      show (rule ds tokens depth name s.position).map (Option.map Prod.snd) = _
      dsimp only at eq
      rw [← named, eq, Option.map_some, Option.map_map]
      rfl
    exact term_quiet follows calls
  | @terminal name multiplicity label =>
    have reads : Quiet ds g tokens opened (Parser.symbol tokens.toArray callStep (.terminal name))
        (fun _ place => some (terminal tokens name place)) := by
      intro s h remembers calm
      obtain ⟨remembers, comes⟩ := terminal_quiet name s h remembers calm
      refine ⟨remembers, comes.mono fun depth eq => eq.trans ?_⟩
      unfold Parser.symbol
      rw [Option.map_map]
      rfl
    exact term_quiet follows reads
  | @group alternatives multiplicity label id lowers =>
    have calls : Quiet ds g tokens opened (callStep id)
        (fun depth place => (longest tokens (call ds tokens depth) alternatives 0 place).map
          (Option.map Prod.snd)) := by
      intro s h remembers calm
      obtain ⟨remembers, comes⟩ := quiet id _ (.group lowers) s h remembers calm
      refine ⟨remembers, comes.mono fun depth eq => ?_⟩
      have ends := congrArg (Option.map (Option.map Prod.snd)) eq
      rw [Option.map_some, Option.map_map, Option.map_map] at ends
      refine Eq.trans ?_ ends
      show (longest tokens (call ds tokens depth) alternatives 0 s.position).map (Option.map Prod.snd) = _
      rcases longest tokens (call ds tokens depth) alternatives 0 s.position with _ | _ | _ <;> rfl
    exact term_quiet follows calls

/-- What stands for phrases ends where they do, one after the other. -/
theorem sequence_quiet {ps : List Phrase} {ts : List Term} (lowers : LowersAll ds g.rules ds.length ps ts) :
    Quiet ds g tokens opened (Parser.sequence g tokens.toArray callStep ts)
      (fun depth => sequence tokens (call ds tokens depth) ps) := by
  induction ps generalizing ts with
  | nil =>
    cases lowers
    exact fun s _ remembers _ => ⟨remembers, .of_forall fun _ => rfl⟩
  | cons p ps ih =>
    cases lowers with
    | @cons _ t _ ts first others =>
    intro s h remembers calm
    have step := phrase_quiet quiet follows first s h remembers
    have leads := Plain.follows_term follows t s h
    rw [Parser.sequence] at calm ⊢
    rcases run : Parser.term g tokens.toArray callStep t s with ⟨_ | tree, s₁⟩ <;>
      rw [run] at step leads calm <;> dsimp only at calm ⊢
    · obtain ⟨remembers, comes⟩ := step calm
      refine ⟨remembers, comes.mono fun depth eq => ?_⟩
      replace eq : phrase tokens (call ds tokens depth) p s.position = some none := eq
      rw [sequence, eq]
      rfl
    · have leads' := Plain.follows_sequence follows ts s₁ leads.holds
      have step' := ih others s₁ leads.holds
      rcases run' : Parser.sequence g tokens.toArray callStep ts s₁ with ⟨_ | trees, s₂⟩ <;>
        rw [run'] at step' leads' calm <;> dsimp only at calm leads' ⊢
      all_goals
        -- if both together meet no rule in progress, neither does
        obtain ⟨calm, calm'⟩ := hits_eq_of_calm leads.toPasses leads'.toPasses calm
        obtain ⟨remembers, comes⟩ := step calm
        obtain ⟨remembers, comes'⟩ := step' remembers calm'
        refine ⟨remembers, ?_⟩
        filter_upwards [comes, comes'] with depth eq eq'
        replace eq : phrase tokens (call ds tokens depth) p s.position = some (some s₁.position) := eq
        rw [sequence, eq]
        exact eq'

omit quiet follows in
/-- Of three alternatives it does not matter which two are compared first. -/
theorem longer_assoc (a b c : Option (Nat × Nat)) : longer (longer a b) c = longer a (longer b c) := by
  rcases a with _ | a
  · rfl
  rcases b with _ | b
  · rfl
  rcases c with _ | c
  · by_cases ab : a.2 < b.2 <;> simp [longer, ab]
  by_cases ab : a.2 < b.2 <;> by_cases bc : b.2 < c.2 <;> by_cases ac : a.2 < c.2 <;>
    simp [longer, ab, bc, ac] <;> omega

omit quiet follows in
/-- Whether an alternative takes the place of the best one is decided by which ends later. -/
theorem map_better (start : Nat) (best : Option Parser.Candidate) (c : Parser.Candidate) :
    (Plain.better best c).map (fun c => (c.index, start + c.consumed))
      = longer (best.map fun c => (c.index, start + c.consumed)) (some (c.index, start + c.consumed)) := by
  rcases best with _ | b
  · simp [Plain.better, longer]
  · by_cases less : b.consumed < c.consumed <;> simp [Plain.better, longer, less]

/-- What stands for an alternative of a group ends where the alternative does. -/
theorem branch_quiet {ps : List Phrase} {alternatives : List (List Phrase)} {ts : List Term}
    {lowered : List (List Term)}
    (lowers : LowersBranches ds g.rules ds.length (ps :: alternatives) (ts :: lowered)) :
    Quiet ds g tokens opened (Parser.sequence g tokens.toArray callStep ts)
        (fun depth => sequence tokens (call ds tokens depth) ps)
      ∧ LowersBranches ds g.rules ds.length alternatives lowered := by
  cases lowers with
  | direct first others => exact ⟨sequence_quiet quiet follows first, others⟩
  | hoisted first others =>
    refine ⟨?_, others⟩
    have group : Lowers ds g.rules ds.length (.group [ps] .one none) _ := .group first
    have single := sequence_quiet quiet follows (.cons group .nil)
    intro s h remembers calm
    obtain ⟨remembers, comes⟩ := single s h remembers calm
    exact ⟨remembers, comes.mono fun depth eq => (sequence_group ..).symm.trans eq⟩

/-- The best alternative is the longest of those that the others stand for. -/
theorem longest_quiet {start : Nat} (le : start ≤ tokens.length) {alternatives : List (List Phrase)}
    {lowered : List (List Term)} (lowers : LowersBranches ds g.rules ds.length alternatives lowered)
    (index : Nat) (best : Option Parser.Candidate) (inside : ∀ b ∈ best, start + b.consumed ≤ tokens.length)
    {s : State} (h : Holds g tokens opened s) (remembers : Remembers ds g tokens s)
    (calm : (Parser.longest g tokens.toArray callStep start index lowered best s).2.hits = s.hits) :
    let after := Parser.longest g tokens.toArray callStep start index lowered best s
    Remembers ds g tokens after.2
      ∧ ∀ᶠ depth in atTop, ∃ found,
        longest tokens (call ds tokens depth) alternatives index start = some found
          ∧ after.1.map (fun c => (c.index, start + c.consumed))
            = longer (best.map fun c => (c.index, start + c.consumed)) found := by
  induction alternatives generalizing lowered index best s with
  | nil =>
    cases lowers
    refine ⟨remembers, .of_forall fun _ => ⟨none, rfl, ?_⟩⟩
    cases best <;> rfl
  | cons ps alternatives ih =>
    cases lowered with
    | nil => cases lowers
    | cons ts lowered =>
    obtain ⟨branch, others⟩ := branch_quiet quiet follows lowers
    have step := branch _ (h.moveTo le) (remembers.moveTo start)
    have leads := Plain.follows_sequence follows ts _ (h.moveTo le)
    rw [Parser.longest] at calm ⊢
    rcases run : Parser.sequence g tokens.toArray callStep ts (Parser.moveTo start s)
      with ⟨_ | children, s₁⟩ <;> rw [run] at step leads calm <;> dsimp only at calm ⊢
    · -- the alternative is refused, and the best one stays the best
      obtain ⟨passes, -⟩ := Plain.passes_longest follows le (index + 1) lowered best inside leads.holds
      obtain ⟨calm, calm'⟩ := hits_eq_of_calm leads.toPasses passes calm
      obtain ⟨remembers, comes⟩ := step calm
      obtain ⟨remembers, comes'⟩ := ih others (index + 1) best inside leads.holds remembers calm'
      refine ⟨remembers, ?_⟩
      filter_upwards [comes, comes'] with depth eq others
      obtain ⟨found, eq', best_eq⟩ := others
      replace eq : sequence tokens (call ds tokens depth) ps start = some none := eq
      refine ⟨found, ?_, best_eq⟩
      rw [longest, eq, eq']
      rfl
    · -- the alternative is found, and compared with the best one by its length
      have place_le : start ≤ s₁.position := leads.position_le rfl
      have inside' : ∀ b ∈ Plain.better best ⟨index, children, s₁.position - start⟩,
          start + b.consumed ≤ tokens.length := fun b mem => by
        rcases Plain.eq_or_mem_of_mem_better mem with rfl | mem
        · simpa [Nat.add_sub_cancel' place_le] using leads.holds.position_le
        · exact inside b mem
      obtain ⟨passes, -⟩ := Plain.passes_longest follows le (index + 1) lowered _ inside' leads.holds
      obtain ⟨calm, calm'⟩ := hits_eq_of_calm leads.toPasses passes calm
      obtain ⟨remembers, comes⟩ := step calm
      obtain ⟨remembers, comes'⟩ := ih others (index + 1) _ inside' leads.holds remembers calm'
      refine ⟨remembers, ?_⟩
      filter_upwards [comes, comes'] with depth eq others
      obtain ⟨found, eq', best_eq⟩ := others
      replace eq : sequence tokens (call ds tokens depth) ps start = some (some s₁.position) := eq
      refine ⟨longer (some (index, s₁.position)) found, ?_, best_eq.trans ?_⟩
      · rw [longest, eq, eq']
        rfl
      · rw [map_better, longer_assoc, Nat.add_sub_cancel' place_le]

/-- A body with alternatives that stand for some comes to the longest of them. -/
theorem body_quiet {alternatives : List (List Phrase)} {lowered : List (List Term)}
    (lowers : LowersBranches ds g.rules ds.length alternatives lowered) (name : String) {s : State}
    (h : Holds g tokens opened s) (remembers : Remembers ds g tokens s)
    (calm : (Parser.body g tokens.toArray callStep ⟨name, .choice lowered⟩ s).2.hits = s.hits) :
    let after := Parser.body g tokens.toArray callStep ⟨name, .choice lowered⟩ s
    Remembers ds g tokens after.2 ∧ ∀ᶠ depth in atTop,
      (longest tokens (call ds tokens depth) alternatives 0 s.position).map
          (Option.map fun (index, next) => (some index, next))
        = some (after.1.map fun t => (t.choice?, after.2.position)) := by
  have step := longest_quiet quiet follows h.position_le lowers 0 none nofun h remembers
  dsimp only [Parser.body] at calm ⊢
  rcases run : Parser.longest g tokens.toArray callStep s.position 0 lowered none s
    with ⟨_ | best, s₁⟩ <;> rw [run] at step calm <;> dsimp only at calm ⊢
  · obtain ⟨remembers, comes⟩ := step calm
    refine ⟨remembers, comes.mono fun depth ⟨found, eq, absent⟩ => ?_⟩
    obtain rfl : found = none := absent.symm
    rw [eq]
    rfl
  · obtain ⟨remembers, comes⟩ := step calm
    refine ⟨remembers, comes.mono fun depth ⟨found, eq, there⟩ => ?_⟩
    obtain rfl : found = some (best.index, s.position + best.consumed) := there.symm
    rw [eq]
    rfl

end

/-! ### Rules -/

section

variable {id : Nat} {s s₁ : State}

/-- What holds one level below from some depth on holds from some depth on. -/
theorem eventually_of_succ {p : Nat → Prop} (h : ∀ᶠ depth in atTop, p (depth + 1)) :
    ∀ᶠ depth in atTop, p depth := by
  rw [← map_add_atTop_eq_nat 1]
  exact h

/-- There is a rule for what means something. -/
theorem Means.exists_rule (lowering : IsLowering ds g.rules) {f} (means : Means ds g tokens id f) :
    ∃ r, g.rules[id]? = some r := by
  cases means with
  | declared found =>
    obtain ⟨r, there, -⟩ := lowering.declared id _ found
    exact ⟨r, there⟩
  | group lowers =>
    cases lowers with
    | intro _ there => exact ⟨_, there⟩

/-- What is put down for a call that met no rule in progress. -/
theorem remembers_remember {start : Nat} {found : Option Tree} (calm : s₁.hits = s.hits)
    (le : found.isSome → start ≤ s₁.position) (remembers : Remembers ds g tokens s₁)
    (comes : ∀ f, Means ds g tokens id f → ∀ᶠ depth in atTop,
      f depth start = some (found.map fun t => (t.choice?, s₁.position))) :
    Remembers ds g tokens (Parser.remember id start s.hits found s₁) := by
  intro id' place result f known means
  dsimp only [Parser.remember] at known
  rw [if_pos calm, Std.HashMap.getElem?_insert] at known
  split at known
  · next same =>
    obtain ⟨rfl, rfl⟩ := Prod.mk.inj (beq_iff_eq.1 same)
    obtain rfl := Memo.done.inj (Option.some.inj known)
    refine (comes f means).mono fun depth eq => eq.trans ?_
    cases found with
    | none => rfl
    | some t => simp [Nat.add_sub_cancel' (le rfl)]
  · exact remembers id' place result f known means

/-- What was put down for a call is remembered. -/
theorem isDone_remember {start : Nat} {found : Option Tree} (calm : s₁.hits = s.hits) :
    Plain.IsDone (Parser.remember id start s.hits found s₁) (id, start) := by
  dsimp only [Parser.remember]
  exact ⟨_, by rw [if_pos calm, Std.HashMap.getElem?_insert_self]⟩

/-- A rule that was called without meeting one in progress is remembered for the place; and that stays
so (`Plain.Passes.kept`). -/
theorem isDone_of_calm {r : Rule} (there : g.rules[id]? = some r) {depth : Nat}
    (calm : (Parser.rule g tokens.toArray (depth + 1) id s).2.hits = s.hits) :
    Plain.IsDone (Parser.rule g tokens.toArray (depth + 1) id s).2 (id, s.position) := by
  unfold Parser.rule at calm ⊢
  rcases known : s.memo[(id, s.position)]? with _ | _ | _ | ⟨t, consumed⟩ <;> rw [known] at calm <;>
    dsimp only at calm ⊢
  · rw [there] at calm ⊢
    dsimp only at calm ⊢
    exact isDone_remember calm
  · exact absurd calm (Nat.succ_ne_self _)
  · exact ⟨none, known⟩
  · exact ⟨some (t, consumed), known⟩

/-- The body of a rule comes to what the rule means. -/
theorem means_quiet (lowering : IsLowering ds g.rules) (nodup : (ds.map Declaration.name).Nodup)
    {callStep : Nat → Step Tree} {attempt : List Call → Nat → Nat → Attempt Tree}
    (quiet : ∀ id f, Means ds g tokens id f → QuietCall ds g tokens opened (callStep id) f)
    (follows : ∀ id, Follows g tokens opened (callStep id) (fun others => attempt others id)) {r : Rule}
    (there : g.rules[id]? = some r) {f} (means : Means ds g tokens id f) :
    QuietCall ds g tokens opened (Parser.body g tokens.toArray callStep r) f := by
  intro s h remembers calm
  cases means with
  | @declared d found =>
    have first := Grammar.find?_of_getElem? nodup found
    have lowers := lowering.bodies id d r found there
    obtain ⟨name, body⟩ := r
    cases d with
    | aliasOf name' type =>
      obtain rfl : body = .aliasOf type := lowers
      obtain ⟨remembers, comes⟩ := terminal_quiet type s h remembers calm
      refine ⟨remembers, eventually_of_succ (comes.mono fun depth eq => ?_)⟩
      dsimp only [Parser.body] at eq ⊢
      rw [rule, first]
      dsimp only
      rw [Option.some.inj eq, Option.map_map, Option.map_map]
      rfl
    | rule name' alternatives =>
      obtain ⟨lowered, rfl, lowers⟩ : ∃ lowered, body = .choice lowered ∧ _ := lowers
      obtain ⟨remembers, comes⟩ := body_quiet quiet follows lowers name h remembers calm
      refine ⟨remembers, eventually_of_succ (comes.mono fun depth eq => ?_)⟩
      dsimp only
      rw [rule, first]
      exact eq
  | group lowers =>
    cases lowers with
    | intro _ there' lowers =>
      obtain rfl := Option.some.inj (there'.symm.trans there)
      exact body_quiet quiet follows lowers _ h remembers calm

end

/-- **Calls of rules** that meet no rule in progress come to what the rules mean. -/
theorem rule_quiet (lowering : IsLowering ds g.rules) (nodup : (ds.map Declaration.name).Nodup)
    {depth : Nat} (enough : Plain.unopened g tokens opened < depth) (id : Nat) {f}
    (means : Means ds g tokens id f) :
    QuietCall ds g tokens opened (Parser.rule g tokens.toArray depth id) f := by
  induction depth generalizing opened id f with
  | zero => exact absurd enough (Nat.not_lt_zero _)
  | succ depth ih =>
    intro s h remembers calm
    obtain ⟨r, there⟩ := means.exists_rule lowering
    unfold Parser.rule at calm ⊢
    rcases known : s.memo[(id, s.position)]? with _ | _ | _ | ⟨t, consumed⟩ <;> rw [known] at calm <;>
      dsimp only at calm ⊢
    · -- the first call at the place: the body is parsed with this call in progress
      rw [there] at calm ⊢
      dsimp only at calm ⊢
      have closed : (id, s.position) ∉ opened := by
        rw [← h.inProgress, known]
        simp
      have exists_call : (id, s.position) ∈ Plain.calls g tokens :=
        Plain.mem_calls.2 ⟨(Array.getElem?_eq_some_iff.1 there).1, h.position_le⟩
      have less := Plain.unopened_cons_lt exists_call closed
      have fewer : Plain.unopened g tokens ((id, s.position) :: opened) < depth := by omega
      have entered : Remembers ds g tokens { s with memo := s.memo.insert (id, s.position) .inProgress } := by
        intro other place result f done
        rw [Std.HashMap.getElem?_insert] at done
        split at done
        · cases done
        · exact remembers other place result f done
      have inner {f} (means : Means ds g tokens id f) := means_quiet lowering nodup
        (fun other f means => ih fewer other means) (fun other => Plain.follows_rule fewer other) there means
        { s with memo := s.memo.insert (id, s.position) .inProgress } (h.enter known) entered
      have leads := Plain.follows_body (fun other => Plain.follows_rule fewer other) r _ (h.enter known)
      rcases run : Parser.body g tokens.toArray (Parser.rule g tokens.toArray depth) r
        { s with memo := s.memo.insert (id, s.position) .inProgress } with ⟨_ | t, s₁⟩ <;>
        rw [run] at calm inner leads <;> dsimp only at calm ⊢
      · have calm : s₁.hits = s.hits := calm
        refine ⟨remembers_remember calm (by rintro ⟨⟩) (inner means calm).1 fun f means => (inner means calm).2,
          (inner means calm).2⟩
      · have calm : s₁.hits = s.hits := calm
        exact ⟨remembers_remember calm leads.position_le (inner means calm).1
          fun f means => (inner means calm).2, (inner means calm).2⟩
    · -- a rule in progress would have been counted
      exact absurd calm (Nat.succ_ne_self _)
    · -- an earlier call is remembered with its result
      exact ⟨remembers, remembers id s.position none f known means⟩
    · exact ⟨remembers, remembers id s.position (some (t, consumed)) f known means⟩

/-! ### All tokens -/

/-- Of the declarations only those matter that are found by their names. -/
theorem rule_congr {ds ds' : List Declaration}
    (same : ∀ name, ds'.find? (·.name == name) = ds.find? (·.name == name)) (depth : Nat) :
    rule ds' tokens depth = rule ds tokens depth := by
  induction depth with
  | zero => rfl
  | succ depth ih =>
    funext name place
    rw [rule, rule, same, ih]

end

end Direct

/-- **Groups are matched in their places.** Let a grammar be built from declarations whose names have
neither a colon nor a tilde, and let it parse tokens without ever meeting a rule in progress. Then the
tokens are accepted just if they are when the declarations are followed as they are written; and
each declared rule that was called at a place, which is what the parser remembers
(`Direct.isDone_of_calm`), chooses the same alternative there and takes as many tokens. -/
theorem Grammar.build_matches {name : String} {v : Vocabulary} {ds : List Declaration} {g : Grammar}
    (built : build name v ds = .ok g) (unmarked : isMarked name = false) (plain : ∀ d ∈ ds, d.isPlain)
    (tokens : List Token)
    (calm : (Parser.rule g tokens.toArray (Parser.depthBound g tokens.toArray) g.entry {}).2.hits = 0) :
    (∃ least, ∀ depth ≥ least, Direct.accepts ds name tokens depth
        = some (g.parseTokens tokens).toOption.isSome)
      ∧ ∀ d ∈ ds, ∀ id place known, g.ruleId? d.name = some id →
        (Parser.rule g tokens.toArray (Parser.depthBound g tokens.toArray) g.entry {}).2.memo[(id, place)]?
          = some known →
        ∃ result, known = .done result ∧ ∃ least, ∀ depth ≥ least,
          Direct.rule ds tokens depth d.name place
            = some (result.map fun (t, consumed) => (t.choice?, place + consumed)) := by
  obtain ⟨ds', lowering, same, nodup, entry⟩ := isLowering_of_build built plain
  obtain ⟨d, found, named⟩ := lowering.toNamed.exists_of_lastId? unmarked entry
  have start : Direct.Remembers ds' g tokens {} := fun _ _ _ _ known => by simp at known
  -- what is remembered in the end tells about all rules, not only about the first
  obtain ⟨remembers, comes⟩ := Direct.rule_quiet lowering nodup (unopened_lt_depthBound g tokens) g.entry
    (.declared found) {} (holds_start g tokens) start calm
  have holds :=
    (Plain.follows_rule (unopened_lt_depthBound g tokens) g.entry {} (holds_start g tokens)).holds
  refine ⟨?accepts, fun d mem id place known numbered kept => ?called⟩
  case accepts =>
    obtain ⟨least, comes⟩ := Filter.eventually_atTop.1 comes
    refine ⟨least, fun depth deep => ?_⟩
    have eq := comes depth deep
    dsimp only at eq
    rw [named, Direct.rule_congr same] at eq
    rw [Direct.accepts, Direct.call, eq, parseTokens, Parser.finish]
    rcases run : Parser.rule g tokens.toArray (Parser.depthBound g tokens.toArray) g.entry {}
      with ⟨_ | t, s⟩ <;> rw [run] at holds
    · rfl
    · have le : s.position ≤ tokens.length := holds.position_le
      by_cases more : s.position < tokens.length
      · simp [more, Nat.ne_of_lt more, Except.toOption]
      · simp [Nat.le_antisymm le (Nat.not_lt.1 more), Except.toOption]
  case called =>
    cases known with
    | inProgress => exact absurd ((holds.inProgress _).1 kept) List.not_mem_nil
    | done result =>
      obtain ⟨d', found, named⟩ :=
        lowering.toNamed.exists_of_lastId? (Declaration.isMarked_name_of_isPlain (plain d mem)) numbered
      obtain ⟨least, comes⟩ :=
        Filter.eventually_atTop.1 (remembers id place result _ kept (.declared found))
      refine ⟨result, rfl, least, fun depth deep => ?_⟩
      have eq := comes depth deep
      dsimp only at eq
      rwa [named, Direct.rule_congr same] at eq

/-- What a group with two alternatives, at least once, is built to. -/
def Grammar.grouped : Grammar where
  name := "s"
  vocabulary := ⟨[.exact "a", .exact "b", .exact "c"], []⟩
  rules := #[
    ⟨"s", .choice [[{ symbol := .rule 1, multiplicity := .plus }]]⟩,
    ⟨"s:0", .choice [[{ symbol := .rule 2 }], [{ symbol := .terminal "\"c\"" }]]⟩,
    ⟨"s~0", .choice [[{ symbol := .terminal "\"a\"" }, { symbol := .terminal "\"b\"" }]]⟩]
  entry := 0
  warnings := []

set_option maxRecDepth 4000 in
/-- The group twice: once with two tokens, and once with one. -/
theorem Grammar.grouped_matches :
    let ds : List Declaration := [.rule "s" [[.group [[.exact "a", .exact "b"], [.exact "c"]] .plus none]]]
    let tokens : List Token := [⟨"\"a\"", "a", none, .start⟩, ⟨"\"b\"", "b", none, .start⟩,
      ⟨"\"c\"", "c", none, .start⟩]
    build "s" grouped.vocabulary ds = .ok grouped
      ∧ ∃ least, ∀ depth ≥ least, Direct.accepts ds "s" tokens depth
          = some (grouped.parseTokens tokens).toOption.isSome := by
  have built : build "s" grouped.vocabulary
      [.rule "s" [[.group [[.exact "a", .exact "b"], [.exact "c"]] .plus none]]] = .ok grouped := by
    decide +kernel
  refine ⟨built, (build_matches built (by decide) (by decide) _ ?_).1⟩
  simp [Parser.depthBound, grouped, Parser.rule, Parser.body, Parser.longest, Parser.sequence,
    Parser.term, Parser.symbol, Parser.repeated, Parser.rounds, Parser.terminal, Parser.expect,
    Parser.peek, Parser.look, Parser.moveTo, Parser.remember, Std.HashMap.getElem?_insert, emptyTerminal,
    endTerminal]

end Polyglot
