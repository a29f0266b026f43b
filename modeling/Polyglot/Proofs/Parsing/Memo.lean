import Polyglot.Proofs.Parsing.Plain

/-!
# Remembering changes nothing

The parser remembers results, and uses them again under other open calls than
those they were found under. This module shows that it makes no difference: the
trees and the errors are those of the parser that remembers nothing
(`Grammar.parseTokens_eq_parsePlainly`).

**Why a result holds elsewhere.** A result is only remembered if no call on the
way to it failed for being open. Then it holds under any open calls that are not
met on the way. And those that are met on the way were remembered before it. A
call that is remembered is never opened again, so no call that is met on the way
can be open when the result is used. This is the invariant, `Holds.done`: what is
remembered about a call is what comes of it under all open calls of which none is
remembered.

**How a step is followed.** `Leads` says what a step of the parser has to do with
an attempt. The attempt depends on the open calls, and there are two kinds of
them for which it must be what the step found (`Fits`): the ones that are open,
and, if the step met no open call, all those of which none is remembered after
it.
-/

namespace Polyglot.Plain

open Polyglot.Parser (State Step Memo)

/-- Whether a call is remembered. -/
def IsDone (s : State) (c : Call) : Prop := ∃ result, s.memo[c]? = some (Memo.done result)

section

variable (g : Grammar) (tokens : List Token)

/-- **The invariant of the parser.** -/
structure Holds (opened : List Call) (s : State) : Prop where
  /-- The parser is at a place among the tokens. -/
  position_le : s.position ≤ tokens.length
  /-- The calls that are marked are the open ones. -/
  inProgress : ∀ c : Call, s.memo[c]? = some Memo.inProgress ↔ c ∈ opened
  /-- A result that is remembered does not go past the end. -/
  done_le : ∀ (id place : Nat) t consumed, s.memo[(id, place)]? = some (Memo.done (some (t, consumed))) →
    place + consumed ≤ tokens.length
  /-- A result that is remembered is the one to be found whenever it is used. -/
  done : ∀ (id place : Nat) result, s.memo[(id, place)]? = some (Memo.done result) →
    ∀ others, (∀ c ∈ others, ¬ IsDone s c) →
      (rule g tokens others id place).result = result.map (fun (t, n) => (t, place + n))
        ∧ (rule g tokens others id place).reach ≤ s.furthest

/-- The calls under which an attempt has to be what the parser found on its way
from one state to another. -/
def Fits (opened : List Call) (s s' : State) (others : List Call) : Prop :=
  others = opened ∨ s'.hits = s.hits ∧ ∀ c ∈ others, ¬ IsDone s' c

/-- What the parser keeps on its way from one state to another. -/
structure Passes (opened : List Call) (s s' : State) : Prop where
  holds : Holds g tokens opened s'
  kept : ∀ (c : Call) result, s.memo[c]? = some (Memo.done result) → s'.memo[c]? = some (Memo.done result)
  hits_le : s.hits ≤ s'.hits

/-- The parser goes from one state to another and finds what comes of an
attempt. -/
structure Leads (opened : List Call) (s : State) (attempt : List Call → Attempt α)
    (found : Option α) (s' : State) : Prop extends Passes g tokens opened s s' where
  position_le : found.isSome → s.position ≤ s'.position
  result_eq : ∀ others, Fits opened s s' others →
    (attempt others).result = found.map (·, s'.position)
  furthest_eq : ∀ others, Fits opened s s' others →
    s'.furthest = max s.furthest (attempt others).reach

/-- A step of the parser finds, wherever it starts, what comes of an attempt
there. -/
def Follows (opened : List Call) (step : Step α) (attempt : List Call → Nat → Attempt α) : Prop :=
  ∀ s, Holds g tokens opened s →
    Leads g tokens opened s (fun others => attempt others s.position) (step s).1 (step s).2

end

variable {g : Grammar} {tokens : List Token} {opened others : List Call}

/-! ## Going on from where the parser has come -/

namespace Holds

/-- No open call is remembered. -/
theorem not_isDone {s : State} (h : Holds g tokens opened s) {c : Call} (open_c : c ∈ opened) :
    ¬ IsDone s c := by
  rintro ⟨result, done⟩
  rw [(h.inProgress c).2 open_c] at done
  cases done

/-- The place of the parser does not matter to what it remembers. -/
theorem moveTo {s : State} (h : Holds g tokens opened s) {place : Nat}
    (le : place ≤ tokens.length) : Holds g tokens opened (Parser.moveTo place s) :=
  ⟨le, h.inProgress, h.done_le, h.done⟩

/-- Neither does how far it has looked, if it is not less. -/
theorem reach {s : State} (h : Holds g tokens opened s) {furthest : Nat}
    (le : s.furthest ≤ furthest) : Holds g tokens opened { s with furthest } :=
  ⟨h.position_le, h.inProgress, h.done_le, fun id place result found others free =>
    have ⟨eq, reach_le⟩ := h.done id place result found others free
    ⟨eq, Nat.le_trans reach_le le⟩⟩

end Holds

namespace Passes

theorem refl {s : State} (h : Holds g tokens opened s) : Passes g tokens opened s s :=
  ⟨h, fun _ _ done => done, Nat.le_refl _⟩

theorem trans {s₁ s₂ s₃ : State} (h : Passes g tokens opened s₁ s₂)
    (h' : Passes g tokens opened s₂ s₃) : Passes g tokens opened s₁ s₃ :=
  ⟨h'.holds, fun c r done => h'.kept c r (h.kept c r done), Nat.le_trans h.hits_le h'.hits_le⟩

theorem moveTo {s s' : State} (h : Passes g tokens opened s s') {place : Nat}
    (le : place ≤ tokens.length) : Passes g tokens opened s (Parser.moveTo place s') :=
  ⟨h.holds.moveTo le, h.kept, h.hits_le⟩

theorem isDone {s s' : State} (h : Passes g tokens opened s s') {c : Call} :
    IsDone s c → IsDone s' c :=
  fun ⟨result, done⟩ => ⟨result, h.kept c result done⟩

/-- What fits a way fits its first part. -/
theorem fits_left {s₁ s₂ s₃ : State} (h : Passes g tokens opened s₁ s₂)
    (h' : Passes g tokens opened s₂ s₃) (fits : Fits opened s₁ s₃ others) :
    Fits opened s₁ s₂ others := by
  rcases fits with rfl | ⟨hits, free⟩
  · exact .inl rfl
  · exact .inr ⟨by have := h.hits_le; have := h'.hits_le; omega,
      fun c mem done => free c mem (h'.isDone done)⟩

/-- What fits a way fits its second part. -/
theorem fits_right {s₁ s₂ s₃ : State} (h : Passes g tokens opened s₁ s₂)
    (h' : Passes g tokens opened s₂ s₃) (fits : Fits opened s₁ s₃ others) :
    Fits opened s₂ s₃ others := by
  rcases fits with rfl | ⟨hits, free⟩
  · exact .inl rfl
  · exact .inr ⟨by have := h.hits_le; have := h'.hits_le; omega, free⟩

end Passes

namespace Leads

variable {s s₁ s₂ : State}

/-- Where the parser is after finding nothing does not matter. -/
theorem moveTo {attempt : List Call → Attempt α} (h : Leads g tokens opened s attempt none s₁)
    {place : Nat} (le : place ≤ tokens.length) :
    Leads g tokens opened s attempt none (Parser.moveTo place s₁) :=
  { h.toPasses.moveTo le with
    position_le := nofun
    result_eq := fun others fits => h.result_eq others fits
    furthest_eq := h.furthest_eq }

/-- An attempt may be written in another way. -/
theorem congr {attempt attempt' : List Call → Attempt α} {found : Option α}
    (h : Leads g tokens opened s attempt found s₁)
    (eq : ∀ others, Fits opened s s₁ others → attempt others = attempt' others) :
    Leads g tokens opened s attempt' found s₁ :=
  { h.toPasses with
    position_le := h.position_le
    result_eq := fun others fits => eq others fits ▸ h.result_eq others fits
    furthest_eq := fun others fits => eq others fits ▸ h.furthest_eq others fits }

/-- What is found may be made something else. -/
theorem map {attempt : List Call → Attempt α} {found : Option α}
    (h : Leads g tokens opened s attempt found s₁) (f : α → β) :
    Leads g tokens opened s (fun others => (attempt others).map f) (found.map f) s₁ :=
  { h.toPasses with
    position_le := fun some => h.position_le (by simpa using some)
    result_eq := fun others fits => by
      rw [Attempt.result_map, h.result_eq others fits]
      cases found <;> rfl
    furthest_eq := h.furthest_eq }

/-- Nothing comes of what goes on with what was not found. -/
theorem andThen_none {attempt : List Call → Attempt α} {f : List Call → α → Nat → Attempt β}
    (h : Leads g tokens opened s attempt none s₁) :
    Leads g tokens opened s (fun others => (attempt others).andThen (f others)) none s₁ :=
  { h.toPasses with
    position_le := nofun
    result_eq := fun others fits => by simp [Attempt.andThen, h.result_eq others fits]
    furthest_eq := fun others fits => by
      simpa [Attempt.andThen, h.result_eq others fits] using h.furthest_eq others fits }

/-- One step may be followed by another from where the first one ended. -/
theorem andThen {attempt : List Call → Attempt α} {f : List Call → α → Nat → Attempt β} {x : α}
    {found : Option β} (h : Leads g tokens opened s attempt (some x) s₁)
    (h' : Leads g tokens opened s₁ (fun others => f others x s₁.position) found s₂) :
    Leads g tokens opened s (fun others => (attempt others).andThen (f others)) found s₂ :=
  { h.toPasses.trans h'.toPasses with
    position_le := fun some => Nat.le_trans (h.position_le rfl) (h'.position_le some)
    result_eq := fun others fits => by
      simp [Attempt.andThen, h.result_eq others (h.fits_left h'.toPasses fits),
        h'.result_eq others (h.fits_right h'.toPasses fits)]
    furthest_eq := fun others fits => by
      have fits₁ := h.fits_left h'.toPasses fits
      have fits₂ := h.fits_right h'.toPasses fits
      rw [h'.furthest_eq others fits₂, h.furthest_eq others fits₁]
      simp [Attempt.andThen, h.result_eq others fits₁, Nat.max_assoc] }

end Leads

/-! ## Terminals and symbols -/

/-- A terminal that is there ends at a place among the tokens, and not before it
starts. -/
theorem terminal_bounds {name : String} {place next : Nat} {t : Token}
    (le : place ≤ tokens.length) (found : (terminal tokens name place).result = some (t, next)) :
    place ≤ next ∧ next ≤ tokens.length := by
  unfold terminal at found
  split at found
  · simp only [Option.some.injEq, Prod.mk.injEq] at found
    omega
  split at found
  · split at found <;> simp only [Option.some.injEq, Prod.mk.injEq, reduceCtorEq] at found
    omega
  · obtain ⟨u, hu, eq⟩ := Option.map_eq_some_iff.1 found
    have := (List.getElem?_eq_some_iff.1 (Option.filter_eq_some_iff.1 hu).1).1
    simp only [Prod.mk.injEq] at eq
    omega

/-- A terminal of the parser is the attempt, and a look as far as it reaches. -/
theorem parser_terminal_eq (name : String) (s : State) :
    Parser.terminal tokens.toArray name s
      = ((terminal tokens name s.position).result.map Prod.fst,
          { s with
            position := ((terminal tokens name s.position).result.map Prod.snd).getD s.position
            furthest := max s.furthest (terminal tokens name s.position).reach }) := by
  unfold Parser.terminal terminal
  by_cases empty : name = emptyTerminal
  · simp [empty]
  by_cases ending : name = endTerminal
  · by_cases atEnd : s.position = tokens.length <;>
      simp [ending, atEnd, Parser.look, emptyTerminal, endTerminal]
  · cases token : tokens[s.position]? with
    | none => simp [empty, ending, Parser.expect, Parser.peek, Parser.look, token]
    | some t =>
      by_cases type : t.type = name <;>
        simp [empty, ending, Parser.expect, Parser.peek, Parser.look, token,
          Option.filter_some, type]

theorem follows_terminal (name : String) :
    Follows g tokens opened (Parser.terminal tokens.toArray name)
      (fun _ => terminal tokens name) := by
  intro s h
  have bounds : ∀ t next, (terminal tokens name s.position).result = some (t, next) → _ :=
    fun t next => terminal_bounds h.position_le
  rw [parser_terminal_eq]
  rcases found : (terminal tokens name s.position).result with _ | ⟨t, next⟩
  · exact {
      holds := h.reach (Nat.le_max_left _ _)
      kept := fun _ _ done => done
      hits_le := Nat.le_refl _
      position_le := nofun
      result_eq := fun _ _ => found
      furthest_eq := fun _ _ => rfl }
  · exact {
      holds := (h.reach (Nat.le_max_left _ _)).moveTo (bounds t next found).2
      kept := fun _ _ done => done
      hits_le := Nat.le_refl _
      position_le := fun _ => (bounds t next found).1
      result_eq := fun _ _ => found
      furthest_eq := fun _ _ => rfl }

section

variable {callStep : Nat → Step Tree} {call : List Call → Nat → Nat → Attempt Tree}

theorem follows_symbol
    (follows : ∀ id, Follows g tokens opened (callStep id) (fun others => call others id)) :
    ∀ symbol, Follows g tokens opened (Parser.symbol tokens.toArray callStep symbol)
      (fun others => Plain.symbol tokens (call others) symbol)
  | .rule id => follows id
  | .terminal name => fun s h => (follows_terminal name s h).map Tree.ofToken

end

/-! ## Repetitions -/

section

variable {parse : Step Tree} {attempt : List Call → Nat → Attempt Tree}

/-- The rounds that come after those in hand. -/
theorem leads_rounds (follows : Follows g tokens opened parse attempt)
    (multiplicity : Multiplicity) (fuel : Nat) (items : List Tree) {s : State}
    (h : Holds g tokens opened s) :
    ∃ taken, (Parser.rounds parse multiplicity fuel items s).1 = taken.reverse ++ items
      ∧ Leads g tokens opened s
          (fun others => rounds (attempt others) multiplicity fuel items.isEmpty s.position)
          (some taken) (Parser.rounds parse multiplicity fuel items s).2 := by
  induction fuel generalizing items s with
  | zero =>
    exact ⟨[], rfl, { Passes.refl h with
      position_le := fun _ => Nat.le_refl _
      result_eq := fun _ _ => rfl
      furthest_eq := fun _ _ => (Nat.max_zero _).symm }⟩
  | succ fuel ih =>
    unfold Parser.rounds rounds
    have round := follows s h
    rcases run : parse s with ⟨_ | t, s₁⟩ <;> rw [run] at round <;> dsimp only at round ⊢
    · refine ⟨[], rfl, { round.toPasses.moveTo h.position_le with
        position_le := fun _ => Nat.le_refl _
        result_eq := fun others fits => ?_
        furthest_eq := fun others fits => ?_ }⟩
      · simp [round.result_eq others fits, Parser.moveTo]
      · rw [round.result_eq others fits]
        exact round.furthest_eq others fits
    · by_cases progress : s.position < s₁.position
      · by_cases one : multiplicity = .optional
        · refine ⟨[t], by simp [progress, one], ?_⟩
          simp only [progress, one, decide_true, Bool.true_or, ↓reduceIte, Bool.not_true,
            beq_self_eq_true, Bool.or_true]
          refine (round.map ([·])).congr fun others fits => ?_
          simp [Attempt.map, round.result_eq others fits, Nat.not_le.2 progress]
        · obtain ⟨taken, eq, rest⟩ := ih (t :: items) round.holds
          refine ⟨t :: taken, by simp [progress, one, eq], ?_⟩
          simp only [progress, one, decide_true, Bool.true_or, ↓reduceIte, Bool.not_true,
            Bool.false_or, beq_iff_eq]
          have both := round.andThen (f := fun others t next =>
            (rounds (attempt others) multiplicity fuel false next).map (t :: ·)) (rest.map (t :: ·))
          refine both.congr fun others fits => ?_
          simp [round.result_eq others (round.fits_left rest.toPasses fits),
            Nat.not_le.2 progress]
      · -- a round without a token is the last one, and counts only as the first of at least one
        have stays : s₁.position ≤ s.position := Nat.not_lt.1 progress
        refine ⟨if multiplicity == .plus && items.isEmpty then [t] else [], ?_, ?_⟩
        · by_cases first : (multiplicity == .plus && items.isEmpty) = true <;>
            simp [progress, first]
        · simp only [progress, decide_false, Bool.false_or, Bool.not_false, Bool.true_or,
            ↓reduceIte]
          refine (round.map fun t =>
            if multiplicity == .plus && items.isEmpty then [t] else []).congr fun others fits => ?_
          simp [Attempt.map, round.result_eq others fits, stays]

theorem follows_repeated (follows : Follows g tokens opened parse attempt)
    (multiplicity : Multiplicity) :
    Follows g tokens opened (Parser.repeated tokens.toArray parse multiplicity)
      (fun others => repeated tokens (attempt others) multiplicity) := by
  intro s h
  obtain ⟨taken, eq, found⟩ := leads_rounds follows multiplicity (tokens.length + 1) [] h
  simp only [Parser.repeated, repeated, List.size_toArray]
  rw [List.append_nil] at eq
  have result : ∀ others, Fits opened s _ others →
      (rounds (attempt others) multiplicity (tokens.length + 1) true s.position).result = _ :=
    found.result_eq
  by_cases none : (multiplicity == .plus && taken.isEmpty) = true
  · rw [if_pos (by simpa [eq] using none)]
    exact { found.toPasses with
      position_le := nofun
      result_eq := fun others fits => by simpa [result others fits] using none
      furthest_eq := found.furthest_eq }
  · rw [if_neg (by simpa [eq] using none), eq, List.reverse_reverse]
    exact { found.toPasses with
      position_le := found.position_le
      result_eq := fun others fits => by
        simpa [result others fits, Option.filter_some] using none
      furthest_eq := found.furthest_eq }

end

/-! ## Alternatives -/

section

variable {callStep : Nat → Step Tree} {call : List Call → Nat → Nat → Attempt Tree}

theorem follows_term
    (follows : ∀ id, Follows g tokens opened (callStep id) (fun others => call others id))
    (t : Term) : Follows g tokens opened (Parser.term g tokens.toArray callStep t)
      (fun others => term g tokens (call others) t) := by
  intro s h
  have single := follows_symbol follows t.symbol
  unfold Parser.term term
  by_cases one : t.multiplicity = .one
  · simp only [one, beq_self_eq_true, ↓reduceIte]
    exact (single s h).map _
  · simp only [one, beq_iff_eq, ↓reduceIte]
    exact ((follows_repeated single t.multiplicity s h).map _).map _

theorem follows_sequence
    (follows : ∀ id, Follows g tokens opened (callStep id) (fun others => call others id)) :
    ∀ terms, Follows g tokens opened (Parser.sequence g tokens.toArray callStep terms)
      (fun others => sequence g tokens (call others) terms)
  | [] => fun s h => { Passes.refl h with
      position_le := fun _ => Nat.le_refl _
      result_eq := fun _ _ => rfl
      furthest_eq := fun _ _ => (Nat.max_zero _).symm }
  | t :: ts => fun s h => by
    have first := follows_term follows t s h
    simp only [Parser.sequence, sequence]
    rcases run : Parser.term g tokens.toArray callStep t s with ⟨_ | tree, s₁⟩ <;>
      rw [run] at first <;> dsimp only at first ⊢
    · exact first.andThen_none
    · have others := follows_sequence follows ts s₁ first.holds
      rcases run' : Parser.sequence g tokens.toArray callStep ts s₁ with ⟨_ | trees, s₂⟩ <;>
        rw [run'] at others <;> dsimp only at others ⊢
      · exact first.andThen (others.map (tree :: ·))
      · exact first.andThen (others.map (tree :: ·))

/-- An alternative in hand as an alternative that was tried from a place. -/
def tried (start : Nat) (c : Parser.Candidate) : (Nat × List Tree) × Nat :=
  ((c.index, c.children), start + c.consumed)

@[simp] theorem longer_none (a : Option ((Nat × List Tree) × Nat)) : longer a none = a := by
  cases a <;> rfl

/-- Of three alternatives it does not matter which two are compared first. -/
theorem longer_assoc (a b c : Option ((Nat × List Tree) × Nat)) :
    longer (longer a b) c = longer a (longer b c) := by
  rcases a with _ | a
  · rfl
  rcases b with _ | b
  · rfl
  rcases c with _ | c
  · simp
  by_cases ab : a.2 < b.2 <;> by_cases bc : b.2 < c.2 <;> by_cases ac : a.2 < c.2 <;>
    simp [longer, ab, bc, ac] <;> omega

/-- The best alternative after another one was tried. -/
def better (best : Option Parser.Candidate) (c : Parser.Candidate) : Option Parser.Candidate :=
  if (match best with
    | none => true
    | some b => decide (b.consumed < c.consumed)) then some c else best

theorem eq_or_mem_of_mem_better {best : Option Parser.Candidate} {c b : Parser.Candidate}
    (mem : b ∈ better best c) : b = c ∨ b ∈ best := by
  rcases best with _ | d
  · exact .inl (by simpa [better] using mem.symm)
  · by_cases less : d.consumed < c.consumed <;> simp only [better, less] at mem
    · exact .inl (by simpa using mem.symm)
    · exact .inr (by simpa using mem)

/-- Whether an alternative takes the place of the best one is decided by which is
longer. -/
theorem tried_better (start : Nat) (best : Option Parser.Candidate) (c : Parser.Candidate) :
    (better best c).map (tried start) = longer (best.map (tried start)) (some (tried start c)) := by
  rcases best with _ | b
  · simp [better, longer]
  · by_cases less : b.consumed < c.consumed <;> simp [better, longer, tried, less]

/-- The alternatives from one on, and the best of those before it. -/
theorem passes_longest
    (follows : ∀ id, Follows g tokens opened (callStep id) (fun others => call others id))
    {start : Nat} (le : start ≤ tokens.length) (index : Nat) (alternatives : List (List Term))
    (best : Option Parser.Candidate) (best_le : ∀ b ∈ best, start + b.consumed ≤ tokens.length)
    {s : State} (h : Holds g tokens opened s) :
    let after := Parser.longest g tokens.toArray callStep start index alternatives best s
    Passes g tokens opened s after.2
      ∧ (∀ b ∈ after.1, start + b.consumed ≤ tokens.length)
      ∧ ∀ others, Fits opened s after.2 others →
          let attempt := longest g tokens (call others) start index alternatives
          after.1.map (tried start) = longer (best.map (tried start)) attempt.result
            ∧ after.2.furthest = max s.furthest attempt.reach := by
  induction alternatives generalizing index best s with
  | nil =>
    exact ⟨Passes.refl h, best_le, fun others _ => by simp [Parser.longest, longest, Attempt.refused]⟩
  | cons terms rest ih =>
    have this := follows_sequence follows terms _ (h.moveTo le)
    simp only [Parser.longest, longest]
    rcases run : Parser.sequence g tokens.toArray callStep terms (Parser.moveTo start s)
      with ⟨_ | children, s₁⟩ <;> rw [run] at this <;> dsimp only at this ⊢
    · -- the alternative is refused, and the best one stays the best
      obtain ⟨passes, best_le', eq⟩ := ih (index + 1) best best_le this.holds
      refine ⟨((Passes.refl h).moveTo le).trans (this.toPasses.trans passes), best_le',
        fun others fits => ?_⟩
      have fits' : Fits opened (Parser.moveTo start s) _ others := fits
      obtain ⟨result, furthest⟩ := eq others (this.fits_right passes fits')
      have result₁ := this.result_eq others (this.fits_left passes fits')
      have furthest₁ := this.furthest_eq others (this.fits_left passes fits')
      simp only [Parser.moveTo] at result₁ furthest₁
      simp [result, furthest, result₁, furthest₁, longer, Nat.max_assoc]
    · -- the alternative is found, and compared with the best one by its length
      have place_le : start ≤ s₁.position := this.position_le rfl
      obtain ⟨passes, best_le', eq⟩ := ih (index + 1)
        (better best ⟨index, children, s₁.position - start⟩) (fun b mem => by
          rcases eq_or_mem_of_mem_better mem with rfl | mem
          · simpa [Nat.add_sub_cancel' place_le] using this.holds.position_le
          · exact best_le b mem) this.holds
      refine ⟨((Passes.refl h).moveTo le).trans (this.toPasses.trans passes), best_le',
        fun others fits => ?_⟩
      have fits' : Fits opened (Parser.moveTo start s) _ others := fits
      obtain ⟨result, furthest⟩ := eq others (this.fits_right passes fits')
      have result₁ := this.result_eq others (this.fits_left passes fits')
      have furthest₁ := this.furthest_eq others (this.fits_left passes fits')
      simp only [Parser.moveTo] at result₁ furthest₁
      rw [tried_better, tried, Nat.add_sub_cancel' place_le, longer_assoc] at result
      refine ⟨result.trans ?_, ?_⟩
      · simp [result₁]
      · refine furthest.trans ?_
        rw [furthest₁]
        exact Nat.max_assoc _ _ _

theorem follows_body
    (follows : ∀ id, Follows g tokens opened (callStep id) (fun others => call others id))
    (r : Rule) : Follows g tokens opened (Parser.body g tokens.toArray callStep r)
      (fun others => body g tokens (call others) r) := by
  intro s h
  rcases r with ⟨name, terminal | alternatives⟩
  · exact (follows_terminal terminal s h).map _
  · obtain ⟨passes, best_le, eq⟩ :=
      passes_longest follows h.position_le 0 alternatives none nofun h
    simp only [Parser.body, body]
    rcases run : Parser.longest g tokens.toArray callStep s.position 0 alternatives none s
      with ⟨_ | best, s₁⟩ <;> rw [run] at passes best_le eq <;> dsimp only at passes best_le eq ⊢
    · exact { passes with
        position_le := nofun
        result_eq := fun others fits => by
          have := (eq others fits).1
          simp only [Option.map_none, longer] at this
          simp [← this]
        furthest_eq := fun others fits => (eq others fits).2 }
    · exact { passes.moveTo (best_le best rfl) with
        position_le := fun _ => Nat.le_add_right _ _
        result_eq := fun others fits => by
          have := (eq others fits).1
          simp only [Option.map_none, Option.map_some, longer] at this
          simp [← this, tried, Parser.moveTo]
        furthest_eq := fun others fits => (eq others fits).2 }

end

/-! ## Rules -/

section

variable {id : Nat} {s : State}

/-- A call that is marked is open, and nothing comes of it. -/
theorem leads_inProgress (h : Holds g tokens opened s)
    (known : s.memo[(id, s.position)]? = some Memo.inProgress) :
    Leads g tokens opened s (fun others => rule g tokens others id s.position) none
      { s with hits := s.hits + 1 } := by
  have mem : (id, s.position) ∈ opened := (h.inProgress _).1 known
  have eq : ∀ others, Fits opened s { s with hits := s.hits + 1 } others →
      rule g tokens others id s.position = .refused := by
    rintro others (rfl | ⟨hits, -⟩)
    · rw [rule, dif_neg fun closed => closed.2 mem]
    · simp at hits
  exact {
    holds := ⟨h.position_le, h.inProgress, h.done_le, h.done⟩
    kept := fun _ _ done => done
    hits_le := Nat.le_succ _
    position_le := nofun
    result_eq := fun others fits => by rw [eq others fits]; rfl
    furthest_eq := fun others fits => by rw [eq others fits]; exact (Nat.max_zero _).symm }

/-- A call that is remembered gives what would come of it. -/
theorem leads_done (h : Holds g tokens opened s) {result : Option (Tree × Nat)}
    (known : s.memo[(id, s.position)]? = some (Memo.done result)) :
    Leads g tokens opened s (fun others => rule g tokens others id s.position)
      (result.map Prod.fst)
      (Parser.moveTo ((result.map fun r => s.position + r.2).getD s.position) s) := by
  have free : ∀ {s' : State}, s'.memo = s.memo → ∀ others, Fits opened s s' others →
      ∀ c ∈ others, ¬ IsDone s c := by
    rintro s' memo others (rfl | ⟨-, free⟩)
    · exact fun c mem => h.not_isDone mem
    · simpa only [IsDone, memo] using free
  have le : (result.map fun r => s.position + r.2).getD s.position ≤ tokens.length := by
    rcases result with _ | ⟨t, consumed⟩
    · exact h.position_le
    · exact h.done_le id s.position t consumed known
  exact { (Passes.refl h).moveTo le with
    position_le := fun _ => by cases result <;> simp [Parser.moveTo]
    result_eq := fun others fits => by
      rw [(h.done id s.position result known others (free rfl others fits)).1]
      cases result <;> rfl
    furthest_eq := fun others fits =>
      (Nat.max_eq_left (h.done id s.position result known others (free rfl others fits)).2).symm }

/-- Marking a call opens it. -/
theorem Holds.enter (h : Holds g tokens opened s)
    (unknown : s.memo[(id, s.position)]? = none) :
    Holds g tokens ((id, s.position) :: opened)
      { s with memo := s.memo.insert (id, s.position) .inProgress } := by
  have done_iff : ∀ (c : Call) result,
      (s.memo.insert (id, s.position) Memo.inProgress)[c]? = some (Memo.done result)
        ↔ s.memo[c]? = some (Memo.done result) := by
    intro c result
    rw [Std.HashMap.getElem?_insert]
    by_cases same : (id, s.position) = c
    · simp [← same, unknown]
    · simp [same]
  refine ⟨h.position_le, fun c => ?_, fun i p t n known => h.done_le i p t n ((done_iff _ _).1 known),
    fun i p result known others free => h.done i p result ((done_iff _ _).1 known) others
      fun c mem ⟨r, done⟩ => free c mem ⟨r, (done_iff _ _).2 done⟩⟩
  rw [Std.HashMap.getElem?_insert, List.mem_cons]
  by_cases same : (id, s.position) = c
  · simp [same]
  · simp [same, Ne.symm same, h.inProgress c]

/-- The marked call is not remembered, and forgetting it closes it. -/
theorem Holds.forget {c : Call} (h : Holds g tokens (c :: opened) s) (closed : c ∉ opened) :
    Holds g tokens opened { s with memo := s.memo.erase c } := by
  have marked : s.memo[c]? = some Memo.inProgress := (h.inProgress c).2 (List.mem_cons_self ..)
  have done_iff : ∀ (d : Call) result,
      (s.memo.erase c)[d]? = some (Memo.done result) ↔ s.memo[d]? = some (Memo.done result) := by
    intro d result
    rw [Std.HashMap.getElem?_erase]
    by_cases same : c = d
    · simp [← same, marked]
    · simp [same]
  refine ⟨h.position_le, fun d => ?_, fun i p t n known => h.done_le i p t n ((done_iff _ _).1 known),
    fun i p result known others free => h.done i p result ((done_iff _ _).1 known) others
      fun d mem ⟨r, done⟩ => free d mem ⟨r, (done_iff _ _).2 done⟩⟩
  rw [Std.HashMap.getElem?_erase]
  by_cases same : c = d
  · simp [← same, closed]
  · simp [same, Ne.symm same, h.inProgress d]

/-- Remembering the marked call closes it, if what is remembered is what would be
found. -/
theorem Holds.remember {place : Nat} (h : Holds g tokens ((id, place) :: opened) s)
    (closed : (id, place) ∉ opened) (result : Option (Tree × Nat))
    (le : ∀ t n, result = some (t, n) → place + n ≤ tokens.length)
    (settled : ∀ others, (∀ c ∈ others, ¬ IsDone s c) → (id, place) ∉ others →
      (rule g tokens others id place).result = result.map (fun (t, n) => (t, place + n))
        ∧ (rule g tokens others id place).reach ≤ s.furthest) :
    Holds g tokens opened { s with memo := s.memo.insert (id, place) (.done result) } := by
  have here : (s.memo.insert (id, place) (Memo.done result))[(id, place)]? = some (.done result) :=
    Std.HashMap.getElem?_insert_self
  have elsewhere : ∀ c : Call, (id, place) ≠ c →
      (s.memo.insert (id, place) (Memo.done result))[c]? = s.memo[c]? := by
    intro c other
    rw [Std.HashMap.getElem?_insert]
    simp [other]
  have marked : s.memo[(id, place)]? = some Memo.inProgress :=
    (h.inProgress _).2 (List.mem_cons_self ..)
  -- the call was only marked before, so remembering it makes no other call less free
  have free_before : ∀ others : List Call,
      (∀ c ∈ others,
        ¬ IsDone { s with memo := s.memo.insert (id, place) (.done result) } c) →
      ∀ c ∈ others, ¬ IsDone s c := by
    rintro others free c mem ⟨r, done⟩
    refine free c mem ⟨r, (elsewhere c fun same => ?_).trans done⟩
    rw [← same, marked] at done
    cases done
  refine ⟨h.position_le, fun c => ?_, fun i p t n known => ?_, fun i p r known others free => ?_⟩
  · by_cases same : (id, place) = c
    · simp [← same, closed]
    · rw [elsewhere c same, h.inProgress c]
      simp [Ne.symm same]
  · by_cases same : (id, place) = (i, p)
    · obtain ⟨rfl, rfl⟩ := Prod.mk.inj same
      rw [here, Option.some.injEq, Memo.done.injEq] at known
      exact le t n known
    · exact h.done_le i p t n ((elsewhere _ same).symm.trans known)
  · by_cases same : (id, place) = (i, p)
    · obtain ⟨rfl, rfl⟩ := Prod.mk.inj same
      rw [here, Option.some.injEq, Memo.done.injEq] at known
      subst known
      exact settled others (free_before others free) fun mem => free _ mem ⟨result, here⟩
    · exact h.done i p r ((elsewhere _ same).symm.trans known) others (free_before others free)

/-- A call that is not open parses the body of its rule. -/
theorem rule_eq_body {r : Rule} (there : g.rules[id]? = some r) {place : Nat}
    (le : place ≤ tokens.length) (closed : (id, place) ∉ others) :
    rule g tokens others id place = body g tokens (rule g tokens ((id, place) :: others)) r place := by
  have known : (id, place) ∈ calls g tokens :=
    mem_calls.2 ⟨(Array.getElem?_eq_some_iff.1 there).1, le⟩
  rw [rule, dif_pos ⟨known, closed⟩, there]

/-- A call of a rule that there is not gives nothing. -/
theorem rule_eq_refused (missing : g.rules[id]? = none) (place : Nat) :
    rule g tokens others id place = .refused := by
  refine (rule.eq_1 ..).trans (dif_neg fun known => ?_)
  have := (mem_calls.1 known.1).1
  have := Array.getElem?_eq_none_iff.1 missing
  omega

/-! What a call finds in the body of its rule does not depend on the calls that are open, as long as they
fit. It is remembered if no open call was met on the way, and else the mark is taken away again. -/

section

variable {r : Rule} {found : Option Tree} {s₁ : State}

/-- What is found in the body is what comes of the call. -/
theorem Leads.rule_eq (there : g.rules[id]? = some r) (h : Holds g tokens opened s)
    (inner : Leads g tokens ((id, s.position) :: opened)
      { s with memo := s.memo.insert (id, s.position) .inProgress }
      (fun others => body g tokens (rule g tokens others) r s.position) found s₁)
    (closed : (id, s.position) ∉ others)
    (fits : Fits ((id, s.position) :: opened)
      { s with memo := s.memo.insert (id, s.position) .inProgress } s₁ ((id, s.position) :: others)) :
    (rule g tokens others id s.position).result = found.map (·, s₁.position)
      ∧ s₁.furthest = max s.furthest (rule g tokens others id s.position).reach := by
  rw [rule_eq_body there h.position_le closed]
  exact ⟨inner.result_eq _ fits, inner.furthest_eq _ fits⟩

/-- What was remembered before the call still is, and it is not the call. -/
theorem Leads.kept_done {attempt : List Call → Attempt Tree} {c : Call} {result : Option (Tree × Nat)}
    (unknown : s.memo[(id, s.position)]? = none)
    (inner : Leads g tokens ((id, s.position) :: opened)
      { s with memo := s.memo.insert (id, s.position) .inProgress } attempt found s₁)
    (done : s.memo[c]? = some (Memo.done result)) :
    (id, s.position) ≠ c ∧ s₁.memo[c]? = some (Memo.done result) := by
  have other : (id, s.position) ≠ c := fun same => by simp [← same, unknown] at done
  refine ⟨other, inner.kept c result ?_⟩
  simpa [Std.HashMap.getElem?_insert, other] using done

/-- No open call was met: what is found is remembered. -/
theorem leads_stored (there : g.rules[id]? = some r) (h : Holds g tokens opened s)
    (unknown : s.memo[(id, s.position)]? = none) (closed : (id, s.position) ∉ opened)
    (inner : Leads g tokens ((id, s.position) :: opened)
      { s with memo := s.memo.insert (id, s.position) .inProgress }
      (fun others => body g tokens (rule g tokens others) r s.position) found s₁)
    (hits : s₁.hits = s.hits) :
    Leads g tokens opened s (fun others => rule g tokens others id s.position) found
      { s₁ with
        memo := s₁.memo.insert (id, s.position)
          (.done (found.map fun t => (t, s₁.position - s.position))) } := by
  -- no rule in progress was met, so the result is the same whatever other calls are open
  have settled : ∀ others, (∀ c ∈ others, ¬ IsDone s₁ c) → (id, s.position) ∉ others → _ :=
    fun others free closed => inner.rule_eq there h closed (.inr ⟨hits, fun c mem => by
      rcases List.mem_cons.1 mem with rfl | mem
      · exact inner.holds.not_isDone (List.mem_cons_self ..)
      · exact free c mem⟩)
  have remembered : (found.map fun t => (t, s₁.position - s.position)).map
      (fun (t, n) => (t, s.position + n)) = found.map (·, s₁.position) := by
    rcases found with _ | t
    · rfl
    · simp [Nat.add_sub_cancel' (inner.position_le rfl)]
  have within : ∀ t n, (found.map fun t => (t, s₁.position - s.position)) = some (t, n) →
      s.position + n ≤ tokens.length := by
    intro t n stored
    obtain ⟨u, rfl, same⟩ := Option.map_eq_some_iff.1 stored
    obtain ⟨-, rfl⟩ := Prod.mk.inj same
    have := inner.holds.position_le
    have : s.position ≤ s₁.position := inner.position_le rfl
    omega
  have holds := inner.holds.remember closed _ within fun others free closed => by
    obtain ⟨result, furthest⟩ := settled others free closed
    rw [remembered, furthest]
    exact ⟨result, Nat.le_max_right _ _⟩
  have fitting : ∀ others, Fits opened s { s₁ with
        memo := s₁.memo.insert (id, s.position)
          (.done (found.map fun t => (t, s₁.position - s.position))) } others →
      (rule g tokens others id s.position).result = found.map (·, s₁.position)
        ∧ s₁.furthest = max s.furthest (rule g tokens others id s.position).reach := by
    rintro others (rfl | ⟨-, free⟩)
    · exact inner.rule_eq there h closed (.inl rfl)
    · refine settled others (fun c mem ⟨r, done⟩ => free c mem ?_) fun mem => free _ mem ?_
      · by_cases same : (id, s.position) = c
        · subst same
          exact ⟨_, Std.HashMap.getElem?_insert_self⟩
        · exact ⟨r, by simpa [Std.HashMap.getElem?_insert, same] using done⟩
      · exact ⟨_, Std.HashMap.getElem?_insert_self⟩
  exact {
    holds := holds
    kept := fun c result done => by
      obtain ⟨other, done⟩ := inner.kept_done unknown done
      simpa [Std.HashMap.getElem?_insert, other] using done
    hits_le := inner.hits_le
    position_le := inner.position_le
    result_eq := fun others fits => (fitting others fits).1
    furthest_eq := fun others fits => (fitting others fits).2 }

/-- An open call was met: nothing is remembered, so only the open calls fit. -/
theorem leads_forgotten (there : g.rules[id]? = some r) (h : Holds g tokens opened s)
    (unknown : s.memo[(id, s.position)]? = none) (closed : (id, s.position) ∉ opened)
    (inner : Leads g tokens ((id, s.position) :: opened)
      { s with memo := s.memo.insert (id, s.position) .inProgress }
      (fun others => body g tokens (rule g tokens others) r s.position) found s₁)
    (hits : s₁.hits ≠ s.hits) :
    Leads g tokens opened s (fun others => rule g tokens others id s.position) found
      { s₁ with memo := s₁.memo.erase (id, s.position) } := by
  have fitting : ∀ others, Fits opened s { s₁ with memo := s₁.memo.erase (id, s.position) } others →
      others = opened :=
    fun others fits => fits.resolve_right fun both => hits both.1
  have eq_open := inner.rule_eq there h closed (.inl rfl)
  exact {
    holds := inner.holds.forget closed
    kept := fun c result done => by
      obtain ⟨other, done⟩ := inner.kept_done unknown done
      simpa [Std.HashMap.getElem?_erase, other] using done
    hits_le := inner.hits_le
    position_le := inner.position_le
    result_eq := fun others fits => fitting others fits ▸ eq_open.1
    furthest_eq := fun others fits => fitting others fits ▸ eq_open.2 }

/-- What a call finds in the body of its rule, and remembers if it may. -/
theorem leads_remember (there : g.rules[id]? = some r)
    (h : Holds g tokens opened s) (unknown : s.memo[(id, s.position)]? = none)
    (inner : Leads g tokens ((id, s.position) :: opened)
      { s with memo := s.memo.insert (id, s.position) .inProgress }
      (fun others => body g tokens (rule g tokens others) r s.position) found s₁) :
    Leads g tokens opened s (fun others => rule g tokens others id s.position) found
      (Parser.remember id s.position s.hits found s₁) := by
  have closed : (id, s.position) ∉ opened := by
    rw [← h.inProgress, unknown]
    simp
  unfold Parser.remember
  dsimp only
  split
  · rename_i hits
    exact leads_stored there h unknown closed inner hits
  · rename_i hits
    exact leads_forgotten there h unknown closed inner hits

end

end

/-- **Calls of rules.** The levels that the parser may go down are enough for all
calls that are not open. -/
theorem follows_rule {depth : Nat} (enough : unopened g tokens opened < depth) (id : Nat) :
    Follows g tokens opened (Parser.rule g tokens.toArray depth id)
      (fun others => rule g tokens others id) := by
  induction depth generalizing opened id with
  | zero => exact absurd enough (Nat.not_lt_zero _)
  | succ depth ih =>
    intro s h
    unfold Parser.rule
    rcases known : s.memo[(id, s.position)]? with _ | _ | _ | ⟨t, consumed⟩
    · rcases there : g.rules[id]? with _ | r
      · exact { Passes.refl h with
          position_le := nofun
          result_eq := fun others _ => by simp [rule_eq_refused there, Attempt.refused]
          furthest_eq := fun others _ => by simp [rule_eq_refused there, Attempt.refused] }
      · have closed : (id, s.position) ∉ opened := by
          rw [← h.inProgress, known]
          simp
        have exists_call : (id, s.position) ∈ calls g tokens :=
          mem_calls.2 ⟨(Array.getElem?_eq_some_iff.1 there).1, h.position_le⟩
        have less := unopened_cons_lt exists_call closed
        -- with this call open fewer are left, so the smaller depth is still enough
        have deeper (other : Nat) : Follows g tokens ((id, s.position) :: opened)
            (Parser.rule g tokens.toArray depth other) (fun others => rule g tokens others other) :=
          ih (by omega) other
        have inner := follows_body deeper r _ (h.enter known)
        dsimp only at inner ⊢
        rcases run : Parser.body g tokens.toArray (Parser.rule g tokens.toArray depth) r
          { s with memo := s.memo.insert (id, s.position) .inProgress } with ⟨_ | t, s₁⟩ <;>
          rw [run] at inner
        · exact leads_remember there h known (inner.moveTo h.position_le)
        · exact leads_remember there h known inner
    · exact leads_inProgress h known
    · exact leads_done h known
    · exact leads_done h known

end Polyglot.Plain

namespace Polyglot.Grammar

open Plain

/-- At the start no call is open and nothing is remembered. -/
theorem holds_start (g : Grammar) (tokens : List Token) : Holds g tokens [] {} where
  position_le := Nat.zero_le _
  inProgress := by simp
  done_le := by simp
  done := by simp

/-- There are fewer calls than levels. -/
theorem unopened_lt_depthBound (g : Grammar) (tokens : List Token) :
    unopened g tokens [] < Parser.depthBound g tokens.toArray := by
  refine Nat.lt_succ_of_le (Nat.le_trans (List.length_filter_le ..) (Nat.le_of_eq ?_))
  simp [calls, List.length_flatMap, List.map_const']

/-- **Remembering is transparent.** For every grammar and all tokens, the parser
gives the tree, or the error, of the parser that remembers nothing. -/
theorem parseTokens_eq_parsePlainly (g : Grammar) (tokens : List Token) :
    g.parseTokens tokens = g.parsePlainly tokens := by
  have leads := follows_rule (unopened_lt_depthBound g tokens) g.entry {} (holds_start g tokens)
  have result := leads.result_eq [] (.inl rfl)
  have furthest := leads.furthest_eq [] (.inl rfl)
  unfold parseTokens Parser.finish parsePlainly verdict
  rcases run : Parser.rule g tokens.toArray (Parser.depthBound g tokens.toArray) g.entry {}
    with ⟨_ | t, s⟩ <;> rw [run] at result furthest <;>
    simp_all

end Polyglot.Grammar
