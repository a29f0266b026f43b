import Polyglot.Language.Catalogue
import Polyglot.Proofs.Lexis.Printing
import Polyglot.Proofs.Parsing.Adjacency
import Polyglot.Proofs.Parsing.Suffixes

/-!
# The grammars of the languages

Each language is given by the written form of its grammar, which is read with the grammar of
written grammars. Reading is computed here, with the lexicons and the parser that can be
computed in proofs (`Xbnf.load_eq_ok`), and what is needed of the grammars is checked on
what comes out.
-/

namespace Polyglot

/-- Whether lines are spelled with the characters of a text, in which every line is ended by a
line feed. -/
inductive Spelled : List String → List Char → Prop
  /-- There are no lines. -/
  | nil : Spelled [] []
  /-- A line before others. -/
  | cons {line : List Char} {lines : List String} {text : List Char} :
      Spelled lines text → Spelled (String.ofList line :: lines) (line ++ '\n' :: text)

theorem Spelled.toList_unlines {lines : List String} {text : List Char} (h : Spelled lines text) :
    (unlines lines).toList = text := by
  induction h with
  | nil => rfl
  | @cons line lines text _ ih =>
    rw [unlines, List.map_cons, String.join_cons, String.toList_append, String.toList_push,
      String.toList_ofList, List.append_assoc]
    exact congrArg (line ++ '\n' :: ·) ih

namespace Grammar

/-- A grammar has the vocabulary that it was built with. -/
theorem vocabulary_of_build {name : String} {v : Vocabulary} {ds : List Declaration} {g : Grammar}
    (built : build name v ds = .ok g) : g.vocabulary = v := by
  unfold build at built
  dsimp only at built
  split at built
  · cases built
  · obtain ⟨rules, -, built⟩ := Except.bind_eq_ok.1 built
    split at built
    · cases built
    · obtain rfl := Except.ok.inj built
      rfl

/-- What a grammar reads in a source is what it has for the tokens of its lexicon. -/
theorem parse_eq_ok {g : Grammar} {l : Lexicon} (vocabulary : g.vocabulary = l.vocabulary)
    {source : String} {t : Tree} :
    g.parse source = .ok t
      ↔ ∃ ts, l.tokenize source.toList = .ok ts ∧ g.parseTokens ts = .ok t := by
  simp only [parse, tokenize, Except.bind_eq_ok, Except.mapError_eq_ok, vocabulary,
    Lexicon.tokenize_vocabulary]

end Grammar

namespace Language

variable {L : Language} {g : Grammar} {l : Lexicon}

/-- What a language reads in a source is what its grammar has for the tokens of its lexicon. -/
theorem parse_eq_ok (grammar : L.grammar? = .ok g) (vocabulary : g.vocabulary = l.vocabulary)
    {source : String} {t : Tree} :
    L.parse source = .ok t
      ↔ ∃ ts, l.tokenize source.toList = .ok ts ∧ g.parseTokens ts = .ok t := by
  rw [parse, grammar]
  exact Grammar.parse_eq_ok vocabulary

/-- What is read in a source can be computed along its tokens. -/
theorem exists_parse (grammar : L.grammar? = .ok g) (vocabulary : g.vocabulary = l.vocabulary)
    {source : String} {p : Tree → Bool} (depth : Nat)
    (checked : ((l.tokenize source.toList).toOption.bind (g.parseAlong depth)).any p) :
    ∃ t, L.parse source = .ok t ∧ p t := by
  obtain ⟨t, found, holds⟩ := (Option.any_eq_true ..).1 checked
  obtain ⟨ts, cut, found⟩ := Option.bind_eq_some_iff.1 found
  exact ⟨t, (parse_eq_ok grammar vocabulary).2
    ⟨ts, Except.toOption_eq_some.1 cut, Grammar.parseTokens_of_parseAlong found⟩, holds⟩

end Language

namespace Assembly

/-- The term that asks for exactly one text. -/
def word (text : String) : Term := { symbol := .terminal (Text.quote text) }

end Assembly

namespace B

/-- The term that asks for a rule. -/
def one (id : Nat) : Term := { symbol := .rule id }

end B

namespace Xbnf

open Assembly (word)
open B (one)

/-- The lexicon of written grammars. -/
def lexicon : Lexicon := ⟨[.identifier, .string, .regex] ++ signs.map .exact, true⟩

theorem vocabulary_eq : vocabulary = lexicon.vocabulary := by decide +kernel

/-- The rules of written grammars, the last of which stand for the groups in the others. -/
def rules : Array Rule := #[
  ⟨"xbnf", .choice [[{ one 1 with multiplicity := .star }]]⟩,
  ⟨"declaration", .choice [[one 2], [one 3], [one 4]]⟩,
  ⟨"rule", .choice [[one 10, word "::=", one 5, word ";"]]⟩,
  ⟨"alias_rule", .choice [[word "alias", one 10, word "::=", one 9, word ";"]]⟩,
  ⟨"ignore_rule", .choice [[word "ignore", { symbol := .terminal "regex" }, word ";"]]⟩,
  ⟨"body", .choice [[one 6, { one 12 with multiplicity := .star }]]⟩,
  ⟨"expression", .choice [[{ one 7 with multiplicity := .plus }]]⟩,
  ⟨"term", .choice [[{ one 13 with multiplicity := .optional }, one 8,
    { one 11 with multiplicity := .optional }]]⟩,
  ⟨"atom", .choice [[one 10], [one 9], [word "(", one 5, word ")"]]⟩,
  ⟨"terminal", .choice
    [[{ symbol := .terminal "escaped_string" }], [{ symbol := .terminal "identifier" }], [word "$"]]⟩,
  ⟨"nonterminal", .choice [[word "<", { symbol := .terminal "identifier" }, word ">"]]⟩,
  ⟨"multiplicity", .choice [[word "?"], [word "*"], [word "+"]]⟩,
  ⟨"body:0", .choice [[word "|", one 6]]⟩,
  ⟨"term:0", .choice [[{ symbol := .terminal "identifier" }, word "="]]⟩]

/-- The grammar of written grammars, as it comes out. -/
def readGrammar : Grammar := ⟨name, lexicon.vocabulary, rules, 0, []⟩

theorem grammar?_eq : grammar? = .ok readGrammar := by
  rw [grammar?, vocabulary_eq]
  decide +kernel

/-- How deep the calls of rules go in the written grammars that there are. -/
def depth : Nat := 200

/-- The grammar with a name that is written in a text, if it can be read along the tokens. -/
def loadAlong (name : String) (text : List Char) : Option Grammar := do
  let g ← grammar?.toOption
  let tokens ← (lexicon.tokenize text).toOption
  let tree ← g.parseAlong depth tokens
  let vocabulary ← (takeVocabulary .blank tree).toOption
  let declarations ← (declarationsOf tree).toOption
  (Grammar.build name vocabulary declarations).toOption

/-- The grammar of written grammars is built once and for all. -/
theorem loadAlong_eq (name : String) (text : List Char) :
    loadAlong name text = (do
      let tokens ← (lexicon.tokenize text).toOption
      let tree ← readGrammar.parseAlong depth tokens
      let vocabulary ← (takeVocabulary .blank tree).toOption
      let declarations ← (declarationsOf tree).toOption
      (Grammar.build name vocabulary declarations).toOption) := by
  rw [loadAlong, grammar?_eq]
  rfl

/-- What is read along the tokens is the tree of a written grammar. -/
theorem parse_eq_ok {lines : List String} {text : List Char} {tokens : List Token} {t : Tree}
    (spelled : Spelled lines text) (cut : (lexicon.tokenize text).toOption = some tokens)
    (parsed : readGrammar.parseAlong depth tokens = some t) : parse (unlines lines) = .ok t := by
  rw [parse, grammar?_eq]
  refine (Grammar.parse_eq_ok rfl).2 ⟨tokens, ?_, Grammar.parseTokens_of_parseAlong parsed⟩
  rw [spelled.toList_unlines]
  exact Except.toOption_eq_some.1 cut

/-- **What is read along the tokens** is the grammar. -/
theorem load_eq_ok {name : String} {lines : List String} {text : List Char} {g : Grammar}
    (spelled : Spelled lines text) (read : loadAlong name text = some g) :
    load name (unlines lines) = .ok g := by
  rw [loadAlong_eq] at read
  simp only [Option.bind_eq_bind, Option.bind_eq_some_iff] at read
  obtain ⟨tokens, cut, tree, parsed, vocabulary, taken, ds, declared, built⟩ := read
  rw [load, parse_eq_ok spelled cut parsed]
  show Except.mapError _ (do
    let vocabulary ← takeVocabulary .blank _
    Grammar.build name vocabulary (← declarationsOf _)) = _
  rw [Except.toOption_eq_some.1 taken]
  show Except.mapError _ (do Grammar.build name vocabulary (← declarationsOf _)) = _
  rw [Except.toOption_eq_some.1 declared]
  show Except.mapError _ (Grammar.build name vocabulary ds) = _
  rw [Except.toOption_eq_some.1 built]
  rfl

/-- What holds of what is read along the tokens holds of the grammar. -/
theorem exists_load {name : String} {lines : List String} {text : List Char} {p : Grammar → Prop}
    [DecidablePred p] (spelled : Spelled lines text)
    (checked : (loadAlong name text).any fun g => decide (p g)) :
    ∃ g, load name (unlines lines) = .ok g ∧ p g := by
  obtain ⟨g, read, checked⟩ := (Option.any_eq_true ..).1 checked
  exact ⟨g, load_eq_ok spelled read, of_decide_eq_true checked⟩

/-- The lexicon of the language of written grammars, in the order of its own written form. -/
def writtenLexicon : Lexicon :=
  ⟨["::=", ";", "alias", "ignore"].map .exact ++ [.regex] ++ ["|"].map .exact ++ [.identifier]
    ++ ["=", "(", ")"].map .exact ++ [.string] ++ ["$", "<", ">", "?", "*", "+"].map .exact, true⟩

theorem grammar_eq : ∃ g, grammar = .ok g ∧ g.vocabulary = writtenLexicon.vocabulary := by
  unfold grammar source
  apply exists_load
  case spelled => repeat' constructor
  rw [loadAlong_eq]
  decide +kernel

end Xbnf

namespace Assembly

/-- The mnemonics of instructions with one operand. -/
def mnemonics₁ : List String := ["jump", "jumpv", "sys", "sysv", "exit", "exitv"]

/-- The mnemonics of instructions with two operands. -/
def mnemonics₂ : List String := ["not", "set", "setv", "jumpif", "jumpifv"]

/-- The mnemonics of instructions with three operands. -/
def mnemonics₃ : List String :=
  ["load", "store", "storev", "add", "sub", "mul", "div", "mod", "or", "and", "xor", "eq", "neq",
   "gt", "geq", "lt", "leq", "ls", "rs", "addv", "subv", "mulv", "divv", "modv", "orv", "andv",
   "xorv", "eqv", "neqv", "gtv", "geqv", "ltv", "leqv", "lsv", "rsv"]

/-- The lexicon of the language. -/
def lexicon : Lexicon :=
  ⟨[.exact ".data", .exact ".code", .identifier, .exact ":"]
    ++ (mnemonics₁ ++ mnemonics₂ ++ mnemonics₃).map .exact
    ++ [.exact "-", .integer, .exact "=", .string], true⟩

/-- The rules of the language. -/
def rules : Array Rule := #[
  ⟨"a", .choice [[{ symbol := .rule 1, multiplicity := .optional }, { symbol := .rule 2 }]]⟩,
  ⟨"data", .choice [[word ".data", { symbol := .rule 12, multiplicity := .star }]]⟩,
  ⟨"code", .choice [[word ".code", { symbol := .rule 3, multiplicity := .star }]]⟩,
  ⟨"line", .choice [[{ symbol := .rule 4 }], [{ symbol := .rule 5 }]]⟩,
  ⟨"label",
    .choice [[{ symbol := .terminal "identifier", label := some "name" }, word ":"]]⟩,
  ⟨"instruction", .choice
    [[{ symbol := .rule 6, label := some "op" }, { symbol := .rule 9 }],
     [{ symbol := .rule 7, label := some "op" }, { symbol := .rule 9 }, { symbol := .rule 9 }],
     [{ symbol := .rule 8, label := some "op" }, { symbol := .rule 9 }, { symbol := .rule 9 },
      { symbol := .rule 9 }]]⟩,
  ⟨"op1", .choice (mnemonics₁.map fun m => [word m])⟩,
  ⟨"op2", .choice (mnemonics₂.map fun m => [word m])⟩,
  ⟨"op3", .choice (mnemonics₃.map fun m => [word m])⟩,
  ⟨"operand", .choice [[{ symbol := .rule 13 }], [{ symbol := .rule 10 }], [{ symbol := .rule 11 }]]⟩,
  ⟨"integer", .choice [[{ word "-" with multiplicity := .optional },
    { symbol := .terminal "decimal_integer" }]]⟩,
  ⟨"constant_ref", .choice [[word "=", { symbol := .terminal "decimal_integer" }]]⟩,
  ⟨"constant", .aliasOf "escaped_string"⟩,
  ⟨"name", .aliasOf "identifier"⟩]

/-- The grammar of the language, as it comes out. -/
def readGrammar : Grammar := ⟨"a", lexicon.vocabulary, rules, 0, []⟩

theorem grammar_eq : grammar = .ok readGrammar := by
  unfold grammar source
  apply Xbnf.load_eq_ok
  case spelled => repeat' constructor
  rw [Xbnf.loadAlong_eq]
  decide +kernel

end Assembly

namespace Pattern

/-- The lexicon of the language. -/
def lexicon : Lexicon :=
  ⟨["|", "*", "+", "?", "(", ")"].map .exact ++ [.identifier, .integer, .string, .exact "."], false⟩

theorem grammar_eq : ∃ g, grammar = .ok g ∧ g.vocabulary = lexicon.vocabulary := by
  unfold grammar source
  apply Xbnf.exists_load
  case spelled => repeat' constructor
  rw [Xbnf.loadAlong_eq]
  decide +kernel

end Pattern

namespace B

open Assembly (word)

/-- The lexicon of the language. -/
def lexicon : Lexicon :=
  ⟨[.exact "fn", .identifier]
    ++ ["(", ")", ",", "\x7b", "\x7d", "while", "if", "else", "return", ";", "=", "[", "]", "|", "&",
      "==", "!=", "<", "<=", ">", ">=", "+", "-", "*", "/", "%", "!"].map .exact
    ++ [.integer, .string], false⟩

/-- An exclamation mark, alone in its rule, is never followed by an equals sign, which only
comes first in the two rules of the second operand of an equality. -/
def fringes : Fringes where
  left := [Text.quote "!"]
  right := [Text.quote "=", Text.quote "=="]
  empty := []
  starts := [30, 31]
  stops := [38]

/-- The rules of the language, the last of which stand for the groups in the others. -/
def rules : Array Rule := #[
  ⟨"b", .choice [[{ one 1 with multiplicity := .plus }]]⟩,
  ⟨"function", .choice [[word "fn", { symbol := .terminal "identifier", label := some "name" },
    word "(", { one 2 with multiplicity := .optional }, word ")", { one 3 with label := some "body" }]]⟩,
  ⟨"parameters", .choice [[{ symbol := .terminal "identifier" }, { one 26 with multiplicity := .star }]]⟩,
  ⟨"statement",
    .choice [[one 4], [one 5], [one 6], [one 7], [one 8], [one 9], [one 10], [one 11]]⟩,
  ⟨"block", .choice [[word "\x7b", { one 3 with multiplicity := .star }, word "\x7d"]]⟩,
  ⟨"while", .choice [[word "while", word "(", { one 12 with label := some "condition" }, word ")",
    { one 3 with label := some "body" }]]⟩,
  ⟨"if", .choice [[word "if", word "(", { one 12 with label := some "condition" }, word ")",
    { one 3 with label := some "then" }, { one 27 with multiplicity := .optional }]]⟩,
  ⟨"return", .choice
    [[word "return", { one 12 with multiplicity := .optional, label := some "value" }, word ";"]]⟩,
  ⟨"assignment", .choice [[{ symbol := .terminal "identifier", label := some "target" }, word "=",
    { one 12 with label := some "value" }, word ";"]]⟩,
  ⟨"store", .choice [[word "[", { one 12 with label := some "address" }, word "]", word "=",
    { one 12 with label := some "value" }, word ";"]]⟩,
  ⟨"call_statement", .choice [[one 20, word ";"]]⟩,
  ⟨"empty", .choice [[word ";"]]⟩,
  ⟨"expression", .choice [[one 13, { one 28 with multiplicity := .star }]]⟩,
  ⟨"conjunction", .choice [[one 14, { one 29 with multiplicity := .star }]]⟩,
  ⟨"equality", .choice [[one 15, { one 30 with multiplicity := .star }]]⟩,
  ⟨"comparison", .choice [[one 16, { one 32 with multiplicity := .star }]]⟩,
  ⟨"sum", .choice [[one 17, { one 34 with multiplicity := .star }]]⟩,
  ⟨"product", .choice [[one 18, { one 36 with multiplicity := .star }]]⟩,
  ⟨"unary", .choice [[one 38, one 18], [one 19]]⟩,
  ⟨"primary", .choice
    [[one 20], [one 22], [one 23], [one 24], [one 25], [word "(", one 12, word ")"]]⟩,
  ⟨"call", .choice [[{ symbol := .terminal "identifier", label := some "name" }, word "(",
    { one 21 with multiplicity := .optional }, word ")"]]⟩,
  ⟨"arguments", .choice [[one 12, { one 39 with multiplicity := .star }]]⟩,
  ⟨"load", .choice [[word "[", { one 12 with label := some "address" }, word "]"]]⟩,
  ⟨"variable", .aliasOf "identifier"⟩,
  ⟨"integer", .aliasOf "decimal_integer"⟩,
  ⟨"string", .aliasOf "escaped_string"⟩,
  ⟨"parameters:0", .choice [[word ",", { symbol := .terminal "identifier" }]]⟩,
  ⟨"if:0", .choice [[word "else", { one 3 with label := some "otherwise" }]]⟩,
  ⟨"expression:0", .choice [[word "|", one 13]]⟩,
  ⟨"conjunction:0", .choice [[word "&", one 14]]⟩,
  ⟨"equality:0", .choice [[one 31, one 15]]⟩,
  ⟨"equality:1", .choice [[word "=="], [word "!="]]⟩,
  ⟨"comparison:0", .choice [[one 33, one 16]]⟩,
  ⟨"comparison:1", .choice [[word "<"], [word "<="], [word ">"], [word ">="]]⟩,
  ⟨"sum:0", .choice [[one 35, one 17]]⟩,
  ⟨"sum:1", .choice [[word "+"], [word "-"]]⟩,
  ⟨"product:0", .choice [[one 37, one 18]]⟩,
  ⟨"product:1", .choice [[word "*"], [word "/"], [word "%"]]⟩,
  ⟨"unary:0", .choice [[word "!"], [word "-"]]⟩,
  ⟨"arguments:0", .choice [[word ",", one 12]]⟩]

/-- The grammar of the language, as it comes out. -/
def readGrammar : Grammar := ⟨"b", lexicon.vocabulary, rules, 0, []⟩

theorem grammar_eq : grammar = .ok readGrammar := by
  unfold grammar source
  apply Xbnf.load_eq_ok
  case spelled => repeat' constructor
  rw [Xbnf.loadAlong_eq]
  decide +kernel

theorem check_fringes : fringes.check readGrammar := by decide +kernel

end B

namespace Expr

open Assembly (word)
open B (one)

/-- The lexicon of the language. -/
def lexicon : Lexicon :=
  ⟨["+", "-", "*", "/", "%", "(", ")"].map .exact ++ [.integer, .identifier], false⟩

/-- The rules of the language, the last of which stand for the groups in the others. -/
def rules : Array Rule := #[
  ⟨"expr", .choice [[one 1]]⟩,
  ⟨"sum", .choice [[one 2, { one 7 with multiplicity := .star }]]⟩,
  ⟨"product", .choice [[one 3, { one 9 with multiplicity := .star }]]⟩,
  ⟨"unary", .choice [[word "-", one 3], [one 4]]⟩,
  ⟨"primary", .choice [[one 5], [one 6], [word "(", one 1, word ")"]]⟩,
  ⟨"number", .aliasOf "decimal_integer"⟩,
  ⟨"variable", .aliasOf "identifier"⟩,
  ⟨"sum:0", .choice [[one 8, one 2]]⟩,
  ⟨"sum:1", .choice [[word "+"], [word "-"]]⟩,
  ⟨"product:0", .choice [[one 10, one 3]]⟩,
  ⟨"product:1", .choice [[word "*"], [word "/"], [word "%"]]⟩]

/-- The grammar of the language, as it comes out. -/
def readGrammar : Grammar := ⟨"expr", lexicon.vocabulary, rules, 0, []⟩

theorem grammar_eq : grammar = .ok readGrammar := by
  unfold grammar source
  apply Xbnf.load_eq_ok
  case spelled => repeat' constructor
  rw [Xbnf.loadAlong_eq]
  decide +kernel

end Expr

end Polyglot
