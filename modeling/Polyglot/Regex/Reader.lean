import Polyglot.Regex.Class
import Polyglot.Text.Numeral

/-!
# Reading regular expressions

The written form of regular expressions: literals, escapes, the point, classes,
groups, alternatives and repetitions with their lazy forms.

Reading goes from left to right with the alternatives and the parts of the
current row in hand, so that a repetition sign finds the part it applies to at
the front. Two choices are worth pointing out, because they are easy to get
wrong: a repetition sign needs a part before it, and an empty alternative is
none; a closing brace and a closing square bracket stand for themselves, an
opening brace never does.

**Two limits.** What is read may not be nested too deeply, and it may not weigh
too much. The depth is that of the *written* form, so every part is in hand
together with its depth: a repetition, a group, a row of several parts and a
choice of several are a level each. The weight is that of the expression, which
is in simplified form as soon as it is read.
-/

namespace Polyglot.Regex

/-- The condition that an escaped letter stands for. -/
def escapedLook? : Char → Option Look
  | 'A' => some .start
  | 'z' => some .stop
  | 'B' => some .noWordBoundary
  | '<' => some .wordStart
  | '>' => some .wordEnd
  | _ => none

/-- The boundaries of words that have a name. -/
def namedBoundary? : String → Option Look
  | "start" => some .wordStart
  | "end" => some .wordEnd
  | "start-half" => some .noWordBefore
  | "end-half" => some .noWordAfter
  | _ => none

/-- A boundary of words after its escape, and the text after it. A name in braces
may tell which; braces with anything else are a count. -/
def readBoundary : List Char → Except SyntaxError (Look × List Char)
  | '\x7b' :: c :: rest =>
    let isOfName (c : Char) := c.isAlpha || c == '-'
    let text := c :: rest
    if isOfName c then
      match namedBoundary? (String.ofList (text.takeWhile isOfName)), text.dropWhile isOfName with
      | some kind, '\x7d' :: rest => .ok (kind, rest)
      | _, _ => .error .unknownEscape
    else .ok (.wordBoundary, '\x7b' :: text)
  | text => .ok (.wordBoundary, text)

/-- What an escape outside of a class stands for, after its backslash, and the
text after it. -/
def readEscaped (text : List Char) : Except SyntaxError (Regex × List Char) :=
  match text with
  | 'b' :: rest => do
    let (kind, rest) ← readBoundary rest
    return (look kind, rest)
  | _ =>
    match text.head?.bind escapedLook? with
    | some kind => .ok (look kind, text.tail)
    | none => do
      let (item, rest) ← readEscape text
      return (oneOf item.charSet, rest)

/-- A number of a count, blanks around it ignored, and the text after it. -/
def readNumber (text : List Char) : Except SyntaxError (Nat × List Char) :=
  let text := text.dropWhile Text.isBlank
  match Text.natural? (text.takeWhile Char.isDigit) with
  | none => .error .malformedCount
  | some n =>
    if n < Text.bitRange 32 then .ok (n, (text.dropWhile Char.isDigit).dropWhile Text.isBlank)
    else .error .malformedCount

/-- A count after its opening brace: the bounds, and the text after it. -/
def readCount (text : List Char) : Except SyntaxError ((Nat × Option Nat) × List Char) := do
  let (low, rest) ← readNumber text
  match rest with
  | '\x7d' :: rest => return ((low, some low), rest)
  | ',' :: '\x7d' :: rest => return ((low, none), rest)
  | ',' :: rest => do
    let (high, rest) ← readNumber rest
    match rest with
    | '\x7d' :: rest =>
      if low ≤ high then return ((low, some high), rest) else .error .reversedCount
    | _ => .error .malformedCount
  | _ => .error .malformedCount

/-- Whether a repetition sign is followed by the sign of laziness, and the text
after that. -/
def readLaziness : List Char → Bool × List Char
  | '?' :: rest => (false, rest)
  | text => (true, text)

/-- A row of the parts in hand, the last of which comes first. -/
def rowOf (parts : List (Nested Regex)) : Nested Regex := .join concat parts

/-- Reads an expression up to the end of the text or to the bracket that closes
the group it is in. In hand are the alternatives that are complete and the parts
of the current one, the last of them first. At most `room` more groups may be
opened inside each other. -/
def readFrom : Nat → Nat → List (Nested Regex) → List (Nested Regex) → List Char →
    Except SyntaxError (Nested Regex × List Char)
  | 0, _, _, _, _ => .error .unclosedGroup
  | _ + 1, _, branches, parts, [] => .ok (.join alternation (rowOf parts :: branches), [])
  | fuel + 1, room, branches, parts, c :: rest =>
    let continueWith (part : Nested Regex) (rest : List Char) :=
      readFrom fuel room branches (part :: parts) rest
    let repeated (low : Nat) (high : Option Nat) (rest : List Char) :=
      match parts with
      | [] => .error .nothingToRepeat
      | part :: parts =>
        let (greedy, rest) := readLaziness rest
        readFrom fuel room branches (part.under (repetition low high greedy) :: parts) rest
    let grouped (build : Regex → Regex) (rest : List Char) :=
      match room with
      | 0 => .error .tooDeep
      | inside + 1 => do
        let (inner, rest) ← readFrom fuel inside [] [] rest
        match rest with
        | [] => .error .unclosedGroup
        | _ :: rest => continueWith (inner.under build) rest
    match c with
    | ')' => .ok (.join alternation (rowOf parts :: branches), c :: rest)
    | '|' => readFrom fuel room (rowOf parts :: branches) [] rest
    | '(' =>
      match rest with
      | '?' :: ':' :: rest => grouped id rest
      | '?' :: _ => .error .unknownGroup
      | rest => grouped (capture rest.length) rest
    | '*' => repeated 0 none rest
    | '+' => repeated 1 none rest
    | '?' => repeated 0 (some 1) rest
    | '\x7b' =>
      if parts.isEmpty then .error .nothingToRepeat
      else do
        let ((low, high), rest) ← readCount rest
        repeated low high rest
    | '[' => do
      let (s, rest) ← readClass rest
      continueWith ⟨oneOf s.value, s.depth⟩ rest
    | '\\' => do
      let (r, rest) ← readEscaped rest
      continueWith ⟨r, 0⟩ rest
    | '.' => continueWith ⟨one .anyInLine, 0⟩ rest
    | '^' => continueWith ⟨look .start, 0⟩ rest
    | '$' => continueWith ⟨look .stop, 0⟩ rest
    | c => continueWith ⟨chars [c], 0⟩ rest

/-- The regular expression that a text is the written form of. -/
def parse (text : List Char) : Except SyntaxError Regex := do
  let (r, rest) ← readFrom (text.length + 1) depthLimit [] [] text
  if !rest.isEmpty then .error .unopenedGroup
  else if depthLimit < r.depth then .error .tooDeep
  else if r.value.isTooHeavy then .error .tooHeavy
  else return r.value

/-- The characters that have a meaning of their own in a written expression. -/
def metaCharacters : List Char :=
  ['\\', '.', '+', '*', '?', '(', ')', '|', '[', ']', '\x7b', '\x7d', '^', '$', '#', '&', '-', '~']

/-- The written form of the expression for exactly one text. -/
def escape (text : String) : String :=
  String.ofList <| text.toList.flatMap fun c =>
    if c ∈ metaCharacters then ['\\', c] else [c]

end Polyglot.Regex
