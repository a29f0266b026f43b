import Polyglot.Lexis.Tokenize
import Polyglot.Source.Diagnostic

/-!
# Grammars

A grammar is a vocabulary and a list of rules. A rule has a name and is either
another name for one terminal or a list of alternatives, each a list of terms. A
term asks for a symbol a number of times: exactly once, at most once, any number
of times, or at least once. Symbols are terminals, by name, and rules, by their
number in the list, so that a grammar is a value without references.

Parsing starts from the rule that has the name of the grammar.
-/

namespace Polyglot

open Polyglot.Source

/-- How many times a term matches. -/
inductive Multiplicity where
  /-- Exactly once. -/
  | one
  /-- At most once. -/
  | optional
  /-- Any number of times. -/
  | star
  /-- At least once. -/
  | plus
  deriving DecidableEq, Repr

namespace Multiplicity

/-- The sign after a term. -/
def suffix : Multiplicity → String
  | one => ""
  | optional => "?"
  | star => "*"
  | plus => "+"

/-- The multiplicity with a sign. -/
def ofSuffix? (text : String) : Option Multiplicity :=
  [one, optional, star, plus].find? (·.suffix == text)

@[simp] theorem ofSuffix?_suffix (m : Multiplicity) : ofSuffix? m.suffix = some m := by
  cases m <;> decide

end Multiplicity

/-- What a term asks for. -/
inductive Symbol where
  /-- A rule, by its number. -/
  | rule (id : Nat)
  /-- A terminal, by its name. -/
  | terminal (name : String)
  deriving DecidableEq, Repr

/-- A symbol a number of times. -/
structure Term where
  /-- The symbol. -/
  symbol : Symbol
  /-- How many times it matches. -/
  multiplicity : Multiplicity := .one
  /-- The label for what it matches. -/
  label : Option String := none
  deriving DecidableEq, Repr

/-- How a rule matches. -/
inductive RuleBody where
  /-- The rule is another name for a terminal. -/
  | aliasOf (terminal : String)
  /-- The rule is a list of alternatives, of which the longest match counts. -/
  | choice (alternatives : List (List Term))
  deriving DecidableEq, Repr

/-- A rule of a grammar. -/
structure Rule where
  /-- The name of the rule. -/
  name : String
  /-- How it matches. -/
  body : RuleBody
  deriving DecidableEq, Repr

/-- A vocabulary and the rules for its tokens. -/
structure Grammar where
  /-- The name of the grammar. -/
  name : String
  /-- The vocabulary. -/
  vocabulary : Vocabulary
  /-- The rules. -/
  rules : Array Rule
  /-- The number of the rule that parsing starts from. -/
  entry : Nat
  /-- What there is to say about the grammar, though it is in order. -/
  warnings : Report
  deriving DecidableEq, Repr

/-- What is wrong with the tree of a written grammar. -/
inductive Defect where
  /-- A terminal has nothing in it. -/
  | emptyTerminal
  /-- A text in quotes has an escape that means nothing. -/
  | invalidString
  /-- There is no pattern to ignore. -/
  | missingPattern
  /-- A name is missing between angle brackets. -/
  | missingName
  /-- A rule lacks its name or its body. -/
  | incompleteRule
  /-- An alias lacks its name or its terminal. -/
  | incompleteAlias
  /-- A body has no alternatives. -/
  | emptyBody
  /-- A term asks for nothing. -/
  | missingAtom
  /-- What a term asks for is empty. -/
  | emptyAtom
  /-- A sign is no multiplicity. -/
  | invalidMultiplicity
  deriving DecidableEq, Repr

/-- The wording of a defect. -/
def Defect.message : Defect → String
  | .emptyTerminal => "empty terminal"
  | .invalidString => "invalid escaped string"
  | .missingPattern => "missing ignore pattern"
  | .missingName => "missing nonterminal name"
  | .incompleteRule => "incomplete rule"
  | .incompleteAlias => "incomplete alias"
  | .emptyBody => "empty body"
  | .missingAtom => "missing atom"
  | .emptyAtom => "empty atom"
  | .invalidMultiplicity => "invalid multiplicity"

/-- Why there is no grammar to a definition. -/
inductive GrammarError where
  /-- A rule is asked for that is not defined. -/
  | undefinedNonterminal (name : String)
  /-- A terminal is asked for that the vocabulary does not know. -/
  | unknownTerminal (name : String)
  /-- A rule is defined more than once. -/
  | duplicateRule (name : String)
  /-- There is no rule with the name of the grammar. -/
  | missingEntryPoint (name : String)
  /-- A pattern is no regular expression. -/
  | invalidPattern (pattern : String) (reason : Regex.SyntaxError)
  /-- The tree of a written grammar has a defect. -/
  | malformed (span : Span) (defect : Defect)
  deriving DecidableEq, Repr

/-- The wording of a grammar error. -/
def GrammarError.message : GrammarError → String
  | .undefinedNonterminal name => s!"nonterminal <{name}> is used but never defined"
  | .unknownTerminal name => s!"unknown terminal {name}"
  | .duplicateRule name => s!"nonterminal <{name}> is defined more than once"
  | .missingEntryPoint name => s!"grammar {name} has no entry point <{name}>"
  | .invalidPattern pattern reason => s!"invalid pattern /{pattern}/: {reason.message}"
  | .malformed span defect => s!"malformed grammar tree at {span}: {defect.message}"

/-- Why tokens are not those of a sentence. -/
inductive ParseError where
  /-- No sentence starts like this. The position is the furthest that was looked
  at, and `found` is the token there. -/
  | failed (position : Position) (found : Option String)
  /-- Only some of the tokens are a sentence. -/
  | incomplete (position : Position) (found : Option String)
  deriving DecidableEq, Repr

namespace ParseError

/-- Where the trouble is. -/
def position : ParseError → Position
  | failed p _ => p
  | incomplete p _ => p

/-- What is there. -/
def near : Option String → String
  | some token => " near " ++ token
  | none => " at end of input"

/-- The wording of a parse error. -/
def message : ParseError → String
  | failed p found => s!"{p}: failed to parse" ++ near found
  | incomplete p found => s!"{p}: did not parse until end of file" ++ near found

end ParseError

/-- Why a source cannot be read with a grammar, or a grammar cannot be had. -/
inductive ReadError where
  /-- The source cannot be cut into tokens. -/
  | lex (error : LexError)
  /-- The tokens are not those of a sentence. -/
  | parse (error : ParseError)
  /-- There is no grammar. -/
  | grammar (error : GrammarError)
  deriving DecidableEq, Repr

namespace ReadError

/-- The wording of the error. -/
def message : ReadError → String
  | lex e => e.message
  | parse e => e.message
  | grammar e => e.message

/-- The stretch of source that the error is about, if it is about one. -/
def span? : ReadError → Option Span
  | lex e => some (.ofPosition e.position)
  | parse e => some (.ofPosition e.position)
  | grammar (.malformed span _) => some span
  | grammar _ => none

/-- The error as a diagnostic. -/
def toDiagnostic (e : ReadError) : Diagnostic :=
  { Diagnostic.error e.message with span := e.span? }

end ReadError

namespace Grammar

/-- The number of the last rule with a name. -/
def lastId? (rules : List Rule) (name : String) : Option Nat :=
  (rules.zipIdx.reverse.find? (·.1.name == name)).map Prod.snd

/-- The number of the rule with a name. -/
def ruleId? (g : Grammar) (name : String) : Option Nat :=
  lastId? g.rules.toList name

/-- The name of a rule, by its number. -/
def ruleName (g : Grammar) (id : Nat) : String :=
  (g.rules[id]?.map Rule.name).getD ""

/-- The name of a symbol. -/
def symbolName (g : Grammar) : Symbol → String
  | .rule id => g.ruleName id
  | .terminal name => name

/-- A term as it is written in a grammar. -/
def termText (g : Grammar) (t : Term) : String :=
  let symbol := match t.symbol with
    | .rule id => "<" ++ g.ruleName id ++ ">"
    | .terminal name => name
  let label := match t.label with
    | none => ""
    | some label => label ++ "="
  label ++ symbol ++ t.multiplicity.suffix

/-- An alternative as it is written in a grammar. -/
def alternativeText (g : Grammar) (terms : List Term) : String :=
  if terms.isEmpty then "e" else " ".intercalate (terms.map g.termText)

/-- A rule as it is written in a grammar. -/
def ruleText (g : Grammar) (r : Rule) : String :=
  match r.body with
  | .aliasOf terminal => s!"alias <{r.name}> ::= {terminal};\n"
  | .choice alternatives =>
    s!"<{r.name}> ::= " ++ " | ".intercalate (alternatives.map g.alternativeText) ++ ";\n"

/-- The rules of a grammar, one on a line. -/
def text (g : Grammar) : String :=
  String.join (g.rules.toList.map g.ruleText)

/-- The tokens of a source. -/
def tokenize (g : Grammar) (source : String) : Except ReadError (List Token) :=
  (g.vocabulary.tokenize source).mapError .lex

end Grammar

end Polyglot
