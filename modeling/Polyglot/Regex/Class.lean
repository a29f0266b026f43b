import Polyglot.Regex.SyntaxError

/-!
# Reading classes of characters

A class is a set of characters in square brackets: characters, ranges, escapes,
named sets and other classes next to each other, whose union is meant, and
operations on such unions. The operations bind more loosely than putting items
next to each other, all of them equally, and from the left; an operand may be
missing, and is then the empty set.

**Hyphens and brackets.** Hyphens at the front of a class stand for themselves,
and so does a closing bracket as the first item, so that no class is empty as
written. Between two items a hyphen makes a range, unless a closing bracket or
another hyphen follows it.

**Depth.** What is read is returned with the number of levels of its written
form, which may not be too many. Here a class is a level, several items next to
each other are one, and so is an operation.
-/

namespace Polyglot.Regex

/-- What was read, with the depth of its written form. -/
structure Nested (α : Type) where
  /-- What was read. -/
  value : α
  /-- How many levels its written form has. -/
  depth : Nat := 0

namespace Nested

/-- What is written as a level of its own around a part. -/
def under (f : α → β) (part : Nested α) : Nested β := ⟨f part.value, part.depth + 1⟩

/-- What is made of several parts, the last of which comes first. Several parts
are a level of their own, and a single one is not. -/
def join (build : List α → α) : List (Nested α) → Nested α
  | [] => ⟨build [], 0⟩
  | [part] => part
  | parts =>
    ⟨build (parts.map value).reverse, parts.foldl (fun d part => max d part.depth) 0 + 1⟩

end Nested

/-! ## Escapes -/

/-- The set that an escaped letter names. -/
def escapedSet? : Char → Option CharSet
  | 'd' => some .digit
  | 'D' => some CharSet.digit.complement
  | 'w' => some .word
  | 'W' => some CharSet.word.complement
  | 's' => some .blank
  | 'S' => some CharSet.blank.complement
  | _ => none

/-- The character that an escaped character stands for. Every ASCII character
that is no letter, digit or angle bracket can be escaped. -/
def escapedChar? : Char → Option Char
  | 'n' => some '\n'
  | 't' => some '\t'
  | 'r' => some '\r'
  | 'f' => some '\x0c'
  | 'v' => some '\x0b'
  | 'a' => some '\x07'
  | '<' => none
  | '>' => none
  | c => if c.toNat < 0x80 && !c.isAlphanum then some c else none

/-- The value of a hexadecimal digit. -/
def hexValue? (c : Char) : Option Nat :=
  if '0' ≤ c ∧ c ≤ '9' then some (c.toNat - '0'.toNat)
  else if 'a' ≤ c ∧ c ≤ 'f' then some (c.toNat - 'a'.toNat + 10)
  else if 'A' ≤ c ∧ c ≤ 'F' then some (c.toNat - 'A'.toNat + 10)
  else none

/-- The character whose code point the hexadecimal digits are. -/
def hexChar? (digits : List Char) : Option Char := do
  if digits.isEmpty then none
  let n ← digits.foldlM (fun n c => (hexValue? c).map (16 * n + ·)) 0
  if n.isValidChar then some (Char.ofNat n) else none

/-- A character given by its code point, and the text after it: so many digits,
or any number of them in braces. -/
def readCodePoint (count : Nat) : List Char → Except SyntaxError (Char × List Char)
  | '\x7b' :: text =>
    match hexChar? (text.takeWhile (· != '\x7d')), text.dropWhile (· != '\x7d') with
    | some c, _ :: rest => .ok (c, rest)
    | _, _ => .error .unknownEscape
  | text =>
    match hexChar? (text.take count) with
    | some c => if text.length < count then .error .unknownEscape else .ok (c, text.drop count)
    | none => .error .unknownEscape

/-! ## Items -/

/-- What stands for characters by itself. -/
inductive CharItem where
  /-- One character, which can be the end of a range. -/
  | char (c : Char)
  /-- A set that an escape names. -/
  | set (s : CharSet)
  deriving DecidableEq, Repr

/-- The characters of an item. -/
def CharItem.charSet : CharItem → CharSet
  | char c => .singleton c
  | set s => s

/-- What an escape stands for, after its backslash, and the text after it. -/
def readEscape : List Char → Except SyntaxError (CharItem × List Char)
  | [] => .error .unknownEscape
  | 'x' :: rest => do return ((← readCodePoint 2 rest).map .char id)
  | 'u' :: rest => do return ((← readCodePoint 4 rest).map .char id)
  | 'U' :: rest => do return ((← readCodePoint 8 rest).map .char id)
  | c :: rest =>
    match escapedSet? c, escapedChar? c with
    | some s, _ => .ok (.set s, rest)
    | none, some d => .ok (.char d, rest)
    | none, none => .error .unknownEscape

/-- One item of a class, and the text after it. -/
def readItem : List Char → Except SyntaxError (CharItem × List Char)
  | [] => .error .unclosedClass
  | '\\' :: rest => readEscape rest
  | c :: rest => .ok (.char c, rest)

/-- The range between two items that are characters in order. -/
def rangeOf : CharItem → CharItem → Except SyntaxError CharSet
  | .char a, .char b => if a ≤ b then .ok (.range a.toNat b.toNat) else .error .invalidRange
  | _, _ => .error .invalidRange

/-- One item of a class or one range, and the text after it. -/
def readRange (text : List Char) : Except SyntaxError (CharSet × List Char) := do
  let (first, rest) ← readItem text
  match rest with
  | '-' :: c :: rest' =>
    if c = ']' ∨ c = '-' then return (first.charSet, rest)
    else
      let (last, rest) ← readItem (c :: rest')
      return (← rangeOf first last, rest)
  | _ => return (first.charSet, rest)

/-- The sets that classes can name, all of them ASCII. -/
def namedSet? (name : String) : Option CharSet :=
  let between (ranges : List (Char × Char)) : Option CharSet :=
    some ⟨ranges.map fun (a, b) => (a.toNat, b.toNat)⟩
  match name with
  | "alnum" => between [('0', '9'), ('A', 'Z'), ('a', 'z')]
  | "alpha" => between [('A', 'Z'), ('a', 'z')]
  | "ascii" => between [('\x00', '\x7f')]
  | "blank" => between [('\t', '\t'), (' ', ' ')]
  | "cntrl" => between [('\x00', '\x1f'), ('\x7f', '\x7f')]
  | "digit" => between [('0', '9')]
  | "graph" => between [('!', '~')]
  | "lower" => between [('a', 'z')]
  | "print" => between [(' ', '~')]
  | "punct" => between [('!', '/'), (':', '@'), ('[', '\x60'), ('\x7b', '~')]
  | "space" => between [('\t', '\r'), (' ', ' ')]
  | "upper" => between [('A', 'Z')]
  | "word" => between [('0', '9'), ('A', 'Z'), ('_', '_'), ('a', 'z')]
  | "xdigit" => between [('0', '9'), ('A', 'F'), ('a', 'f')]
  | _ => none

/-- A set, or what it leaves out. -/
def negatedIf (negated : Bool) (s : CharSet) : CharSet :=
  if negated then s.complement else s

/-- A named set after its opening bracket, if there is one, and the text after
it. -/
def readNamed? : List Char → Option (CharSet × List Char)
  | ':' :: text =>
    let (negated, text) := match text with
      | '^' :: rest => (true, rest)
      | _ => (false, text)
    match text.dropWhile (· != ':') with
    | ':' :: ']' :: rest =>
      (namedSet? (String.ofList (text.takeWhile (· != ':')))).map fun s =>
        (negatedIf negated s, rest)
    | _ => none
  | _ => none

/-! ## Classes -/

/-- An operation on sets of characters. -/
inductive SetOperation where
  /-- What is in both. -/
  | intersection
  /-- What is in the first only. -/
  | difference
  /-- What is in exactly one. -/
  | symmetricDifference
  deriving DecidableEq, Repr

/-- What an operation makes of two sets. -/
def SetOperation.apply : SetOperation → CharSet → CharSet → CharSet
  | intersection => .intersection
  | difference => .difference
  | symmetricDifference => .symmetricDifference

/-- The set read so far: the union of the items in hand, the last of them first,
as the right side of the operation that waits for it, if one does. -/
def operand (waiting : Option (SetOperation × Nested CharSet)) (items : List (Nested CharSet)) :
    Nested CharSet :=
  let right := Nested.join .unionOfList items
  match waiting with
  | none => right
  | some (operation, left) =>
    ⟨operation.apply left.value right.value, max left.depth right.depth + 1⟩

/-- The front of a class after its opening bracket: whether the class is
negated, the items that only stand for themselves because they are at the front,
and the text after them. -/
def readFront (text : List Char) : Bool × List (Nested CharSet) × List Char :=
  let (negated, text) := match text with
    | '^' :: rest => (true, rest)
    | _ => (false, text)
  let hyphens := text.takeWhile (· == '-')
  match hyphens, text.dropWhile (· == '-') with
  | [], ']' :: rest => (negated, [⟨.singleton ']', 0⟩], rest)
  | _, rest => (negated, hyphens.map fun c => ⟨.singleton c, 0⟩, rest)

/-- Reads a class from some item on up to its closing bracket, and the text after
it. At most `room` more classes may be opened inside each other. -/
def readClassFrom : Nat → Nat → Option (SetOperation × Nested CharSet) → List (Nested CharSet) →
    List Char → Except SyntaxError (Nested CharSet × List Char)
  | 0, _, _, _, _ => .error .unclosedClass
  | _ + 1, _, _, _, [] => .error .unclosedClass
  | fuel + 1, room, waiting, items, c :: rest =>
    let operate (operation : SetOperation) (rest : List Char) :=
      readClassFrom fuel room (some (operation, operand waiting items)) [] rest
    match c, rest with
    | ']', _ => .ok (operand waiting items, rest)
    | '&', '&' :: rest => operate .intersection rest
    | '-', '-' :: rest => operate .difference rest
    | '~', '~' :: rest => operate .symmetricDifference rest
    | '[', _ =>
      match readNamed? rest, room with
      | some (s, rest), _ => readClassFrom fuel room waiting (⟨s, 0⟩ :: items) rest
      | none, 0 => .error .tooDeep
      | none, inside + 1 => do
        let (negated, front, rest) := readFront rest
        let (inner, rest) ← readClassFrom fuel inside none front rest
        readClassFrom fuel room waiting (inner.under (negatedIf negated) :: items) rest
    | _, _ => do
      let (s, rest) ← readRange (c :: rest)
      readClassFrom fuel room waiting (⟨s, 0⟩ :: items) rest

/-- A class after its opening bracket, and the text after it. -/
def readClass (text : List Char) : Except SyntaxError (Nested CharSet × List Char) := do
  let (negated, front, rest) := readFront text
  let (inner, rest) ← readClassFrom (rest.length + 1) depthLimit none front rest
  return (inner.under (negatedIf negated), rest)

end Polyglot.Regex
