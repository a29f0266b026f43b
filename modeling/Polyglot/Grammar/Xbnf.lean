import Polyglot.Grammar.Build
import Polyglot.Grammar.Parse
import Polyglot.Tree.Shake

/-!
# Written grammars

Grammars are written in a notation of their own, which is a language like any
other and has a grammar:

    <xbnf> ::= <declaration>*;
    <declaration> ::= <rule> | <alias_rule> | <ignore_rule>;
    <rule> ::= <nonterminal> "::=" <body> ";";
    <alias_rule> ::= "alias" <nonterminal> "::=" <terminal> ";";
    <ignore_rule> ::= "ignore" regex ";";
    <body> ::= <expression> ("|" <expression>)*;
    <expression> ::= <term>+;
    <term> ::= (identifier "=")? <atom> <multiplicity>?;
    <atom> ::= <nonterminal> | <terminal> | "(" <body> ")";
    <terminal> ::= escaped_string | identifier | "$";
    <nonterminal> ::= "<" identifier ">";
    <multiplicity> ::= "?" | "*" | "+";

This grammar is built here from declarations, and every other one is read with
it. The tree of a written grammar is walked twice: once for the vocabulary, which
gets its entries in the order in which they are first used, and once for the
declarations. What is wrong with a terminal or a pattern comes to light in the
first walk, in the order of the text; what is wrong with the rules comes to light
when the declarations are built.
-/

namespace Polyglot

namespace Xbnf

/-- The name of the notation and of its grammar. -/
def name : String := "xbnf"

/-- The texts that stand for themselves in written grammars. -/
def signs : List String :=
  ["::=", ";", "|", "=", "(", ")", "<", ">", "?", "*", "+", "$", "alias", "ignore"]

/-- The vocabulary of written grammars, in which comments run from a number sign
to the end of the line. -/
def vocabulary : Vocabulary :=
  let blank := Vocabulary.blank
  let withComments := (blank.addIgnored "#[^\\n]*").toOption.getD blank
  let withBuiltins := ["identifier", "escaped_string", "regex"].foldl
    (fun v name => (v.addBuiltin? name).getD v) withComments
  signs.foldl Vocabulary.addExact withBuiltins

open Phrase in
/-- The rules of written grammars. -/
def declarations : List Declaration :=
  let identifier := ofTerminal "identifier"
  [ .rule "xbnf" [[(ofRule "declaration").star]],
    .rule "declaration" [[ofRule "rule"], [ofRule "alias_rule"], [ofRule "ignore_rule"]],
    .rule "rule" [[ofRule "nonterminal", exact "::=", ofRule "body", exact ";"]],
    .rule "alias_rule"
      [[exact "alias", ofRule "nonterminal", exact "::=", ofRule "terminal", exact ";"]],
    .rule "ignore_rule" [[exact "ignore", ofTerminal "regex", exact ";"]],
    .rule "body"
      [[ofRule "expression", (ofGroup [[exact "|", ofRule "expression"]]).star]],
    .rule "expression" [[(ofRule "term").plus]],
    .rule "term"
      [[(ofGroup [[identifier, exact "="]]).optional, ofRule "atom",
        (ofRule "multiplicity").optional]],
    .rule "atom" [[ofRule "nonterminal"], [ofRule "terminal"], [exact "(", ofRule "body", exact ")"]],
    .rule "terminal" [[ofTerminal "escaped_string"], [identifier], [exact "$"]],
    .rule "nonterminal" [[exact "<", identifier, exact ">"]],
    .rule "multiplicity" [[exact "?"], [exact "*"], [exact "+"]] ]

/-- The grammar of written grammars, or what is wrong with it. -/
def grammar? : Except GrammarError Grammar :=
  Grammar.build name vocabulary declarations

/-- The tree of a written grammar. -/
def parse (source : String) : Except ReadError Tree := do
  (← grammar?.mapError .grammar).parse source

/-! ## The vocabulary of a written grammar -/

/-- The vocabulary with what a terminal of a written grammar asks for. Names
that are not those of builtin entries are left for the building to judge. -/
def takeTerminal (v : Vocabulary) (t : Tree) : Except GrammarError Vocabulary :=
  match t.choice?, t.children.head?.bind Tree.token? with
  | some 0, some token =>
    match token.str? with
    | some text => .ok (v.addExact text)
    | none => .error (.malformed t.span .invalidString)
  | _, some token => .ok ((v.addBuiltin? token.lexeme).getD v)
  | _, none => .ok v

/-- The vocabulary with the pattern to ignore of a written grammar. -/
def takeIgnored (v : Vocabulary) (t : Tree) : Except GrammarError Vocabulary :=
  match (t.children[1]?.bind Tree.token?).bind Token.str? with
  | some pattern => (v.addIgnored pattern).mapError (.invalidPattern pattern)
  | none => .error (.malformed t.span .missingPattern)

mutual

/-- The vocabulary with all that a written grammar asks for. -/
def takeVocabulary (v : Vocabulary) : Tree → Except GrammarError Vocabulary
  | .leaf .. => .ok v
  | .node name label choice children =>
    let t := Tree.node name label choice children
    if name == "terminal" then takeTerminal v t
    else if name == "ignore_rule" then takeIgnored v t
    else takeVocabularies v children

/-- The vocabulary with all that a list of trees asks for, from left to right. -/
def takeVocabularies (v : Vocabulary) : List Tree → Except GrammarError Vocabulary
  | [] => .ok v
  | t :: ts => do takeVocabularies (← takeVocabulary v t) ts

end

/-! ## The declarations of a written grammar -/

/-- What a part of a written grammar stands for. -/
inductive Piece where
  /-- An identifier. -/
  | identifier (text : String)
  /-- The name of a rule, in angle brackets. -/
  | name (text : String)
  /-- The name of a terminal. -/
  | terminal (name : String)
  /-- The sign after a term. -/
  | multiplicity (m : Multiplicity)
  /-- What a term asks for. -/
  | atom (phrase : Phrase)
  /-- A term. -/
  | term (phrase : Phrase)
  /-- The terms of an alternative. -/
  | expression (phrases : List Phrase)
  /-- The alternatives of a rule or of a group. -/
  | body (alternatives : List (List Phrase))
  /-- A declaration. -/
  | declaration (d : Declaration)

/-- The name of the terminal that a tree asks for. -/
def terminalName (t : Tree) : Except GrammarError String :=
  match t.choice?, t.children.head?.bind Tree.token? with
  | _, none => .error (.malformed t.span .emptyTerminal)
  | some 0, some token =>
    match token.str? with
    | some text => .ok (Text.quote text)
    | none => .error (.malformed t.span .invalidString)
  | _, some token => .ok token.lexeme

/-- The term that its pieces make up. An identifier before what is asked for is
its label. -/
def termOf (pieces : List Piece) : Option Phrase := do
  let atom ← pieces.findSome? fun
    | .atom p => some p
    | _ => none
  let label := (pieces.takeWhile fun | .atom _ => false | _ => true).findSome? fun
    | .identifier text => some text
    | _ => none
  let multiplicity := pieces.findSome? fun
    | .multiplicity m => some m
    | _ => none
  return atom.decorate (multiplicity.getD .one) label

/-- What a tree of a written grammar stands for, given what the trees below it
stand for. -/
def assemble (t : Tree) (pieces : List Piece) : Except GrammarError (List Piece) :=
  let orDefect (defect : Defect) : Option Piece → Except GrammarError (List Piece)
    | some piece => .ok [piece]
    | none => .error (.malformed t.span defect)
  let name := pieces.findSome? fun
    | .name text => some text
    | _ => none
  let body := pieces.findSome? fun
    | .body alternatives => some alternatives
    | _ => none
  let terminal := pieces.findSome? fun
    | .terminal text => some text
    | _ => none
  match t.name with
  | "rule" => orDefect .incompleteRule do return .declaration (.rule (← name) (← body))
  | "alias_rule" => orDefect .incompleteAlias do return .declaration (.aliasOf (← name) (← terminal))
  | "ignore_rule" => .ok []
  | "body" =>
    let alternatives := pieces.filterMap fun
      | .expression phrases => some phrases
      | _ => none
    if alternatives.isEmpty then .error (.malformed t.span .emptyBody)
    else .ok [.body alternatives]
  | "expression" =>
    .ok [.expression (pieces.filterMap fun
      | .term p => some p
      | _ => none)]
  | "term" => orDefect .missingAtom ((termOf pieces).map .term)
  | "atom" =>
    orDefect .emptyAtom <| Option.map Piece.atom <| pieces.findSome? fun
      | .name text => some (.ofRule text)
      | .terminal text => some (.ofTerminal text)
      | .body alternatives => some (.ofGroup alternatives)
      | _ => none
  | "nonterminal" =>
    orDefect .missingName <| pieces.findSome? fun
      | .identifier text => some (.name text)
      | _ => none
  | "terminal" => (terminalName t).map fun text => [.terminal text]
  | "multiplicity" =>
    orDefect .invalidMultiplicity ((Multiplicity.ofSuffix? t.text).map .multiplicity)
  | _ => .ok pieces

mutual

/-- The pieces that a tree of a written grammar stands for. -/
def pieces : Tree → Except GrammarError (List Piece)
  | .leaf _ _ _ token =>
    .ok (if token.type == "identifier" then [.identifier token.lexeme] else [])
  | .node name label choice children => do
    assemble (.node name label choice children) (← piecesOfList children)

/-- The pieces that a list of trees stands for, from left to right. -/
def piecesOfList : List Tree → Except GrammarError (List Piece)
  | [] => .ok []
  | t :: ts => do
    let first ← pieces t
    return first ++ (← piecesOfList ts)

end

/-- The declarations of a written grammar. -/
def declarationsOf (t : Tree) : Except GrammarError (List Declaration) := do
  return (← pieces t).filterMap fun
    | .declaration d => some d
    | _ => none

/-- The grammar with a name that is written in a source. -/
def load (name source : String) : Except ReadError Grammar := do
  let tree ← parse source
  let grammar := do
    let vocabulary ← takeVocabulary .blank tree
    Grammar.build name vocabulary (← declarationsOf tree)
  grammar.mapError .grammar

end Xbnf

end Polyglot
