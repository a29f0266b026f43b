import Polyglot.Grammar.Basic

/-!
# Building grammars

A grammar is built from declarations, which refer to rules by name and may have
groups anywhere in their alternatives. Building takes three steps.

*Collecting* puts the declarations in order by name. A repeated alias is dropped
with a warning; any other name that is declared twice is an error, and the first
of these errors is the one that counts.

*Lowering* replaces names by numbers and groups by rules of their own. The rule
for a group is named after the declared rule it is in and numbered within it; in
a group of several alternatives, each alternative of several terms gets a rule
too. The declared rules come first, in the order of their declarations, and the
others follow in the order they are come across.

*Checking reachability* warns about the declared rules that no chain of terms
leads to from the entry rule.
-/

namespace Polyglot

open Polyglot.Source

/-- A term of a declaration. -/
inductive Phrase where
  /-- A rule, by its name. -/
  | rule (name : String) (multiplicity : Multiplicity) (label : Option String)
  /-- A terminal, by its name. -/
  | terminal (name : String) (multiplicity : Multiplicity) (label : Option String)
  /-- A list of alternatives in brackets. -/
  | group (alternatives : List (List Phrase)) (multiplicity : Multiplicity)
      (label : Option String)
  deriving Repr

instance : Inhabited Phrase := ⟨.group [] .one none⟩

namespace Phrase

/-- The phrase with another multiplicity and another label. -/
def decorate (multiplicity : Multiplicity) (label : Option String) : Phrase → Phrase
  | rule name _ _ => rule name multiplicity label
  | terminal name _ _ => terminal name multiplicity label
  | group alternatives _ _ => group alternatives multiplicity label

/-- A rule, once and without a label. -/
def ofRule (name : String) : Phrase := rule name .one none

/-- A terminal, once and without a label. -/
def ofTerminal (name : String) : Phrase := terminal name .one none

/-- The terminal for exactly one text, once and without a label. -/
def exact (text : String) : Phrase := ofTerminal (Text.quote text)

/-- A group, once and without a label. -/
def ofGroup (alternatives : List (List Phrase)) : Phrase := group alternatives .one none

/-- The phrase at most once, without a label. -/
def optional (p : Phrase) : Phrase := p.decorate .optional none

/-- The phrase any number of times, without a label. -/
def star (p : Phrase) : Phrase := p.decorate .star none

/-- The phrase at least once, without a label. -/
def plus (p : Phrase) : Phrase := p.decorate .plus none

end Phrase

/-- A declaration of a rule. -/
inductive Declaration where
  /-- A rule with its alternatives. -/
  | rule (name : String) (alternatives : List (List Phrase))
  /-- Another name for a terminal. -/
  | aliasOf (name terminal : String)
  deriving Repr

namespace Declaration

/-- The name that is declared. -/
def name : Declaration → String
  | rule name _ => name
  | aliasOf name _ => name

/-- Whether the declaration is an alias. -/
def isAlias : Declaration → Bool
  | rule .. => false
  | aliasOf .. => true

end Declaration

namespace Grammar

/-! ## Collecting -/

/-- The declarations so far. -/
structure Collected where
  /-- Those that count. -/
  declarations : List Declaration := []
  /-- The first error. -/
  error : Option GrammarError := none
  /-- Warnings about those that do not count. -/
  warnings : Report := []

/-- The warning about an alias that was declared before. -/
def repeatedAlias (name : String) : Diagnostic :=
  .warning s!"alias <{name}> is defined more than once, keeping the first"

/-- Takes in one more declaration. -/
def Collected.add (c : Collected) (d : Declaration) : Collected :=
  match c.declarations.find? (·.name == d.name) with
  | none => { c with declarations := c.declarations ++ [d] }
  | some earlier =>
    if d.isAlias && earlier.isAlias then
      { c with warnings := c.warnings ++ [repeatedAlias d.name] }
    else { c with error := c.error <|> some (.duplicateRule d.name) }

/-- The declarations that count, and what there is to say about the others. -/
def collect (declarations : List Declaration) : Collected :=
  declarations.foldl Collected.add {}

/-! ## Lowering -/

/-- The state of lowering: the rules so far, and the numbers that the next group
and the next alternative of the current rule get. -/
structure Lowering where
  /-- The rules so far. -/
  rules : Array Rule
  /-- The number for the next group. -/
  nextGroup : Nat := 0
  /-- The number for the next alternative with a rule of its own. -/
  nextBranch : Nat := 0

/-- A step of lowering. -/
abbrev Lower := StateT Lowering (Except GrammarError)

/-- Adds a rule whose body is to come, and gives its number. -/
def pushRule (name : String) : Lower Nat := do
  let s ← get
  set { s with rules := s.rules.push ⟨name, .choice []⟩ }
  return s.rules.size

/-- Gives a rule its body. -/
def setBody (id : Nat) (body : RuleBody) : Lower Unit :=
  modify fun s => { s with rules := s.rules.modify id fun r => { r with body } }

/-- The number for a group. -/
def takeGroup : Lower Nat := do
  let s ← get
  set { s with nextGroup := s.nextGroup + 1 }
  return s.nextGroup

/-- The number for an alternative with a rule of its own. -/
def takeBranch : Lower Nat := do
  let s ← get
  set { s with nextBranch := s.nextBranch + 1 }
  return s.nextBranch

/-- Checks that the vocabulary knows a terminal. -/
def checkTerminal (v : Vocabulary) (name : String) : Lower Unit :=
  if v.knows name then pure () else throw (.unknownTerminal name)

mutual

/-- Lowers a term of the declared rule `owner`. -/
def lowerPhrase (v : Vocabulary) (owner : String) : Phrase → Lower Term
  | .rule name multiplicity label => do
    match lastId? (← get).rules.toList name with
    | some id => return { symbol := .rule id, multiplicity, label }
    | none => throw (.undefinedNonterminal name)
  | .terminal name multiplicity label => do
    checkTerminal v name
    return { symbol := .terminal name, multiplicity, label }
  | .group alternatives multiplicity label => do
    let id ← pushRule s!"{owner}:{← takeGroup}"
    let lowered ← lowerBranches v owner (alternatives.length > 1) alternatives
    setBody id (.choice lowered)
    return { symbol := .rule id, multiplicity, label }

/-- Lowers the terms of an alternative. -/
def lowerPhrases (v : Vocabulary) (owner : String) : List Phrase → Lower (List Term)
  | [] => return []
  | p :: ps => do
    let term ← lowerPhrase v owner p
    return term :: (← lowerPhrases v owner ps)

/-- Lowers the alternatives of a group. If there are `several`, those of several
terms get rules of their own. -/
def lowerBranches (v : Vocabulary) (owner : String) (several : Bool) :
    List (List Phrase) → Lower (List (List Term))
  | [] => return []
  | phrases :: rest => do
    let lowered ←
      if several && phrases.length > 1 then do
        let id ← pushRule s!"{owner}~{← takeBranch}"
        let terms ← lowerPhrases v owner phrases
        setBody id (.choice [terms])
        pure [{ symbol := .rule id }]
      else lowerPhrases v owner phrases
    return lowered :: (← lowerBranches v owner several rest)

end

/-- Lowers the alternatives of a declared rule. -/
def lowerAlternatives (v : Vocabulary) (owner : String) :
    List (List Phrase) → Lower (List (List Term))
  | [] => return []
  | phrases :: rest => do
    let terms ← lowerPhrases v owner phrases
    return terms :: (← lowerAlternatives v owner rest)

/-- Lowers a declaration to the body of its rule. -/
def lowerDeclaration (v : Vocabulary) : Declaration → Lower RuleBody
  | .aliasOf _ terminal => do
    checkTerminal v terminal
    return .aliasOf terminal
  | .rule name alternatives => do
    modify fun s => { s with nextGroup := 0, nextBranch := 0 }
    return .choice (← lowerAlternatives v name alternatives)

/-- Lowers declarations, the first of which is for the rule with number `id`. -/
def lowerFrom (v : Vocabulary) (id : Nat) : List Declaration → Lower Unit
  | [] => return
  | d :: ds => do
    setBody id (← lowerDeclaration v d)
    lowerFrom v (id + 1) ds

/-- The rules for declarations with different names. -/
def lower (v : Vocabulary) (declarations : List Declaration) :
    Except GrammarError (Array Rule) := do
  let placeholders := declarations.map fun d => { name := d.name, body := .choice [] }
  let ((), s) ← (lowerFrom v 0 declarations).run { rules := placeholders.toArray }
  return s.rules

/-! ## Reachability -/

/-- The rules that the body of a rule asks for. -/
def successors (rules : Array Rule) (id : Nat) : List Nat :=
  match rules[id]? with
  | some ⟨_, .choice alternatives⟩ =>
    alternatives.flatten.filterMap fun t =>
      match t.symbol with
      | .rule next => some next
      | .terminal _ => none
  | _ => []

/-- The rules that can be reached: those that were `seen`, with those that can be
reached from the `queue`. Every rule is in the queue at most once, so the number
of rules bounds how often it is looked at. -/
def reachFrom (rules : Array Rule) : Nat → List Nat → List Nat → List Nat
  | 0, seen, _ => seen
  | _, seen, [] => seen
  | fuel + 1, seen, id :: queue =>
    let fresh := ((successors rules id).filter fun next => !seen.contains next).eraseDups
    reachFrom rules fuel (fresh ++ seen) (queue ++ fresh)

/-- The rules that can be reached from a rule. -/
def reachable (rules : Array Rule) (entry : Nat) : List Nat :=
  reachFrom rules (rules.size + 1) [entry] [entry]

/-- The warning about a rule that cannot be reached. -/
def unusedRule (name : String) : Diagnostic :=
  .warning s!"rule <{name}> is never used"

/-- Warnings about those of the first `declared` rules that cannot be reached. -/
def unusedRules (rules : Array Rule) (entry declared : Nat) : Report :=
  let reached := reachable rules entry
  ((rules.toList.take declared).zipIdx.filter fun (_, id) => !reached.contains id).map
    fun (r, _) => unusedRule r.name

/-- The grammar with a name and a vocabulary that declarations define. -/
def build (name : String) (vocabulary : Vocabulary) (declarations : List Declaration) :
    Except GrammarError Grammar := do
  let collected := collect declarations
  if let some error := collected.error then throw error
  let rules ← lower vocabulary collected.declarations
  match lastId? rules.toList name with
  | none => throw (.missingEntryPoint name)
  | some entry =>
    let unused := unusedRules rules entry collected.declarations.length
    return { name, vocabulary, rules, entry, warnings := collected.warnings ++ unused }

end Grammar

end Polyglot
