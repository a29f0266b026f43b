import Polyglot.Grammar.Parse

/-!
# Parsing without remembering

The parser of `Polyglot.Grammar.Parse` as a recursion on the grammar and nothing
else. There is no state: what comes of trying something at a place is a value, an
`Attempt`, and whoever tries several things puts their attempts together. No
result is kept, so a rule that is called twice is parsed twice.

**What stops left recursion.** A call is a rule and a place, and the calls that
are *open* are those that the current one was made by, directly or not. A call
that is open already fails; every other call of a rule there is, at a place there
is, parses the alternatives of the rule. So the open calls are the whole context
that an attempt depends on, and since there are only so many calls, the recursion
ends: its measure is how many calls are not open (`unopened`).

The theorem that remembering does not change what is parsed is
`Grammar.parseTokens_eq_parsePlainly`, in `Polyglot.Proofs.Parsing.Memo`.
-/

namespace Polyglot.Plain

open Polyglot.Source

/-- A call: the number of a rule, and a place. -/
abbrev Call := Nat × Nat

/-- What comes of trying something at a place. -/
structure Attempt (α : Type) where
  /-- What is there, and the place after it, if it is there. -/
  result : Option (α × Nat)
  /-- The furthest place where a token was looked at, zero if there is none. -/
  reach : Nat
  deriving Repr

namespace Attempt

/-- The attempt that finds nothing without looking. -/
def refused : Attempt α := ⟨none, 0⟩

/-- The attempt with something else made of what is there. -/
def map (f : α → β) (a : Attempt α) : Attempt β :=
  ⟨a.result.map fun (x, next) => (f x, next), a.reach⟩

/-- The attempt followed by another one, at the place after it, if it succeeds. -/
def andThen (a : Attempt α) (f : α → Nat → Attempt β) : Attempt β :=
  match a.result with
  | none => ⟨none, a.reach⟩
  | some (x, next) => ⟨(f x next).result, max a.reach (f x next).reach⟩

@[simp] theorem reach_map (f : α → β) (a : Attempt α) : (a.map f).reach = a.reach := rfl

@[simp] theorem result_map (f : α → β) (a : Attempt α) :
    (a.map f).result = a.result.map fun (x, next) => (f x, next) := rfl

end Attempt

/-- What comes of a terminal. The empty one is there at every place, the end of
the source after the last token. -/
def terminal (tokens : List Token) (name : String) (place : Nat) : Attempt Token :=
  if name = emptyTerminal then
    ⟨some (.empty emptyTerminal (Parser.positionAt tokens.toArray place), place), 0⟩
  else if name = endTerminal then
    if place = tokens.length then
      ⟨some (.empty endTerminal (Parser.endPosition tokens.toArray), place), place⟩
    else ⟨none, place⟩
  else
    ⟨(tokens[place]?.filter (·.type == name)).map fun t => (t, place + 1), place⟩

section

variable (g : Grammar) (tokens : List Token) (call : Nat → Nat → Attempt Tree)

/-- What comes of a symbol, given what comes of calls of rules. -/
def symbol : Symbol → Nat → Attempt Tree
  | .rule id, place => call id place
  | .terminal name, place => (terminal tokens name place).map Tree.ofToken

/-- As many rounds as there are, if `first` from the first round on. A round that
takes no token is the last one, and it only counts if it is the first of at least
one. -/
def rounds (parse : Nat → Attempt Tree) (multiplicity : Multiplicity) :
    Nat → Bool → Nat → Attempt (List Tree)
  | 0, _, place => ⟨some ([], place), 0⟩
  | fuel + 1, first, place =>
    let round := parse place
    match round.result with
    | none => ⟨some ([], place), round.reach⟩
    | some (t, next) =>
      if next ≤ place then
        ⟨some (if multiplicity == .plus && first then [t] else [], next), round.reach⟩
      else if multiplicity = .optional then ⟨some ([t], next), round.reach⟩
      else round.andThen fun t next => (rounds parse multiplicity fuel false next).map (t :: ·)

/-- What comes of a repetition. There are no more rounds than tokens, and one that
takes none. -/
def repeated (parse : Nat → Attempt Tree) (multiplicity : Multiplicity) (place : Nat) :
    Attempt (List Tree) :=
  let found := rounds parse multiplicity (tokens.length + 1) true place
  ⟨found.result.filter fun (items, _) => !(multiplicity == .plus && items.isEmpty), found.reach⟩

/-- What comes of a term. -/
def term (t : Term) (place : Nat) : Attempt Tree :=
  let parse := symbol tokens call t.symbol
  let found :=
    if t.multiplicity = .one then parse place
    else (repeated tokens parse t.multiplicity place).map
      (.node (g.symbolName t.symbol ++ t.multiplicity.suffix) none none)
  found.map (Tree.withLabel t.label)

/-- What comes of terms one after the other. -/
def sequence : List Term → Nat → Attempt (List Tree)
  | [], place => ⟨some ([], place), 0⟩
  | t :: ts, place =>
    (term g tokens call t place).andThen fun tree next => (sequence ts next).map (tree :: ·)

/-- The one of two alternatives that takes more, the first if they take the same. -/
def longer : Option ((Nat × List Tree) × Nat) → Option ((Nat × List Tree) × Nat) →
    Option ((Nat × List Tree) × Nat)
  | none, later => later
  | some earlier, none => some earlier
  | some earlier, some later => if earlier.2 < later.2 then some later else some earlier

/-- The alternative that takes the most tokens, and of several the first: its
number and what is in it. The first of the list has the number `index`. -/
def longest (place : Nat) : Nat → List (List Term) → Attempt (Nat × List Tree)
  | _, [] => .refused
  | index, terms :: rest =>
    let this := (sequence g tokens call terms place).map (index, ·)
    let others := longest place (index + 1) rest
    ⟨longer this.result others.result, max this.reach others.reach⟩

/-- What comes of the body of a rule. -/
def body (r : Rule) (place : Nat) : Attempt Tree :=
  match r.body with
  | .aliasOf name => (terminal tokens name place).map (.leaf r.name none (some name))
  | .choice alternatives =>
    (longest g tokens call place 0 alternatives).map fun (index, children) =>
      .node r.name none (some index) children

end

/-- All calls there are: of every rule, at every place. -/
def calls (g : Grammar) (tokens : List Token) : List Call :=
  (List.range g.rules.size).flatMap fun id => (List.range (tokens.length + 1)).map (id, ·)

/-- A call that there is, is of a rule that there is, at a place up to the end. -/
@[simp] theorem mem_calls {g : Grammar} {tokens : List Token} {id place : Nat} :
    (id, place) ∈ calls g tokens ↔ id < g.rules.size ∧ place ≤ tokens.length := by
  simp [calls, Nat.lt_succ_iff]

/-- How many calls are not open. -/
def unopened (g : Grammar) (tokens : List Token) (opened : List Call) : Nat :=
  ((calls g tokens).filter (· ∉ opened)).length

/-- Opening a call leaves one less to be opened. -/
theorem unopened_cons_lt {g : Grammar} {tokens : List Token} {opened : List Call} {c : Call}
    (known : c ∈ calls g tokens) (closed : c ∉ opened) :
    unopened g tokens (c :: opened) < unopened g tokens opened := by
  have split : (calls g tokens).filter (· ∉ c :: opened)
      = ((calls g tokens).filter (· ∉ opened)).filter (· ≠ c) := by
    rw [List.filter_filter]
    exact List.filter_congr fun d _ => by simp
  rw [unopened, split]
  refine List.length_filter_lt_length_iff_exists.2 ⟨c, List.mem_filter.2 ⟨known, ?_⟩, ?_⟩
  · simpa using closed
  · simp

/-- What comes of calling a rule at a place, given the open calls. -/
def rule (g : Grammar) (tokens : List Token) (opened : List Call) (id place : Nat) :
    Attempt Tree :=
  if h : (id, place) ∈ calls g tokens ∧ (id, place) ∉ opened then
    have := unopened_cons_lt h.1 h.2
    match g.rules[id]? with
    | none => .refused
    | some r => body g tokens (rule g tokens ((id, place) :: opened)) r place
  else .refused
termination_by unopened g tokens opened

/-- What is said of the tokens when no call is open and the rule that parsing
starts from has been called at the first of them. -/
def verdict (tokens : List Token) (a : Attempt Tree) : Except ParseError Tree :=
  let found (place : Nat) : Option String := tokens[place]?.map toString
  let position := Parser.positionAt tokens.toArray
  match a.result with
  | none => .error (.failed (position a.reach) (found a.reach))
  | some (t, next) =>
    if next < tokens.length then
      let place := max a.reach next
      .error (.incomplete (position place) (found place))
    else .ok t

end Polyglot.Plain

namespace Polyglot.Grammar

/-- The tree of a sentence, parsed without remembering anything. -/
def parsePlainly (g : Grammar) (tokens : List Token) : Except ParseError Tree :=
  Plain.verdict tokens (Plain.rule g tokens [] g.entry 0)

end Polyglot.Grammar
