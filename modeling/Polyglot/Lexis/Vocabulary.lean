import Polyglot.Lexis.Token
import Polyglot.Regex.Program
import Polyglot.Regex.Reader
import Polyglot.Text.Escape
import Polyglot.Text.Numeral

/-!
# Vocabularies

A vocabulary says what the tokens of a language are: an ordered list of entries,
each with a name and a pattern, and the patterns of what stands between tokens.
The name of an entry is the type of its tokens. An entry for one exact text is
named by that text in quotes, which no identifier can be.

A pattern is only tried at the front of what is left of the source. It is made
so by its written form: the pattern is put in a group behind the sign for the
start. This is done to the text and not to the expression, so a pattern with a
bracket that closes the group early means something else than it seems to, and
may even match further on.

Two terminals are in no vocabulary, because nothing is read for them: the empty
one, `e`, and the end of the source, `$`.
-/

namespace Polyglot

/-- The terminal that is always there and takes nothing. -/
def emptyTerminal : String := "e"

/-- The terminal that is there after the last token. -/
def endTerminal : String := "$"

/-- Whether a name is one of the terminals that nothing is read for. -/
def isReserved (name : String) : Bool :=
  name == emptyTerminal || name == endTerminal

/-- How the value of a token is made from its text. -/
inductive LiteralRule where
  /-- There is no value. -/
  | none
  /-- The text is a decimal integer. -/
  | integer
  /-- The text is in double quotes, with escapes. -/
  | string
  /-- The text is between slashes, and a slash inside has a backslash before it. -/
  | regex
  deriving DecidableEq, Repr

/-- The text between two delimiters, if it has both. -/
def delimited? (delimiter : Char) (text : List Char) : Option (List Char) :=
  match text with
  | [] => .none
  | c :: rest =>
    if c = delimiter ∧ rest.getLast? = some delimiter then some rest.dropLast else .none

/-- The text with every escaped slash made a slash. -/
def plainSlashes : List Char → List Char
  | '\\' :: '/' :: rest => '/' :: plainSlashes rest
  | c :: rest => c :: plainSlashes rest
  | [] => []

/-- The value that a rule makes of a text. -/
def LiteralRule.value? (rule : LiteralRule) (text : String) : Option Literal :=
  match rule with
  | .none => Option.none
  | .integer => (Text.signed? 64 text.toList).map .int
  | .string => do
    let inner ← delimited? '"' text.toList
    return .str (String.ofList (← Text.unescape inner))
  | .regex => do
    let inner ← delimited? '/' text.toList
    return .str (String.ofList (plainSlashes inner))

/-- The program that a pattern stands for when it is only tried at the front of
a text. -/
def anchoredPattern (pattern : String) : Except Regex.SyntaxError Regex.Program :=
  (Regex.parse ("\\A(?:".toList ++ pattern.toList ++ [')'])).map Regex.program

/-- An entry of a vocabulary. -/
structure Entry where
  /-- The type of its tokens. -/
  name : String
  /-- What its tokens look like. -/
  matcher : Regex.Program
  /-- How their values are made. -/
  rule : LiteralRule := .none
  deriving DecidableEq, Repr

namespace Entry

/-- The entry with a pattern. -/
def ofPattern (name pattern : String) (rule : LiteralRule := .none) :
    Except Regex.SyntaxError Entry :=
  (anchoredPattern pattern).map fun matcher => { name, matcher, rule }

/-- The entry for exactly one text. -/
def exact (text : String) : Entry :=
  { name := Text.quote text
    matcher := (Regex.concat [.look .start, .literal text.toList]).program }

/-- Where the match in a text ends, counted in characters. -/
def matchLength? (e : Entry) (text : List Char) : Option Nat :=
  (e.matcher.find? text).map Prod.snd

/-- How many bytes of a text its match reaches over. -/
def matchBytes? (e : Entry) (text : String) : Option Nat :=
  let cs := text.toList
  (e.matchLength? cs).map fun n => (String.ofList (cs.take n)).utf8ByteSize

/-- Whether this is the entry for exactly this text. -/
def isExactFor (e : Entry) (text : String) : Bool :=
  e.name == Text.quote text

end Entry

/-- The names, patterns and values of the entries that grammars can use by name. -/
def builtinPatterns : List (String × String × LiteralRule) :=
  [("identifier", "[A-Za-z_][A-Za-z0-9_]*", .none),
   ("decimal_integer", "[0-9]+", .integer),
   ("escaped_string", "\"(?:[^\"\\\\\\n]|\\\\.)*\"", .string),
   ("regex", "/(?:[^/\\\\\\n]|\\\\.)*/", .regex)]

/-- The entries that grammars can use by name. -/
def builtinEntries : List Entry :=
  builtinPatterns.filterMap fun (name, pattern, rule) =>
    (Entry.ofPattern name pattern rule).toOption

/-- Whether a name is that of a builtin entry. -/
def isBuiltin (name : String) : Bool :=
  builtinPatterns.any (·.1 == name)

/-- What the tokens of a language are. -/
structure Vocabulary where
  /-- The entries, in the order they were declared. -/
  entries : List Entry
  /-- The patterns of what stands between tokens. -/
  ignored : List Regex.Program
  deriving DecidableEq, Repr

namespace Vocabulary

/-- The vocabulary without entries, in which blanks stand between tokens. -/
def blank : Vocabulary :=
  ⟨[], (anchoredPattern "\\s+").toOption.toList⟩

/-- The entry with a name. -/
def find? (v : Vocabulary) (name : String) : Option Entry :=
  v.entries.find? (·.name == name)

/-- Whether there is an entry with a name. -/
def contains (v : Vocabulary) (name : String) : Bool :=
  v.entries.any (·.name == name)

/-- The vocabulary with one more entry at its end, unless there is one with that
name already. -/
def add (v : Vocabulary) (e : Entry) : Vocabulary :=
  if v.contains e.name then v else { v with entries := v.entries ++ [e] }

/-- The vocabulary with the entry for exactly one text. -/
def addExact (v : Vocabulary) (text : String) : Vocabulary :=
  v.add (.exact text)

/-- The vocabulary with a builtin entry, if there is one with that name. -/
def addBuiltin? (v : Vocabulary) (name : String) : Option Vocabulary :=
  (builtinEntries.find? (·.name == name)).map v.add

/-- The vocabulary with one more pattern of what stands between tokens. -/
def addIgnored (v : Vocabulary) (pattern : String) : Except Regex.SyntaxError Vocabulary :=
  (anchoredPattern pattern).map fun r => { v with ignored := v.ignored ++ [r] }

/-- Whether a grammar can use a name as a terminal. -/
def knows (v : Vocabulary) (name : String) : Bool :=
  isReserved name || v.contains name

end Vocabulary

end Polyglot
