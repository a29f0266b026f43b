/-!
# Escaped text

Two ways to write characters that do not show.

Between double quotes, six characters are written with a backslash: the line
feed, the tab, the carriage return, the null character, the backslash and the
quote. All others stand for themselves. Reading undoes this and accepts nothing
else after a backslash, so that `unescape` is the inverse of `escape` and of
nothing more.

In messages a single character is shown between single quotes, and characters
that have no shape of their own are shown by their number in hexadecimal.
-/

namespace Polyglot.Text

/-- One character as it is written between double quotes. -/
def escapeChar (c : Char) : List Char :=
  match c with
  | '\n' => ['\\', 'n']
  | '\t' => ['\\', 't']
  | '\r' => ['\\', 'r']
  | '\x00' => ['\\', '0']
  | '\\' => ['\\', '\\']
  | '"' => ['\\', '"']
  | c => [c]

/-- A text as it is written between double quotes. -/
def escape (text : List Char) : List Char :=
  text.flatMap escapeChar

/-- The character that a letter after a backslash stands for. -/
def escapeLetter? (c : Char) : Option Char :=
  match c with
  | 'n' => some '\n'
  | 't' => some '\t'
  | 'r' => some '\r'
  | '0' => some '\x00'
  | '\\' => some '\\'
  | '"' => some '"'
  | _ => none

/-- The text that was written between double quotes, unless a backslash is the
last character or has a character after it that it does not go with. -/
def unescape : List Char → Option (List Char)
  | [] => some []
  | ['\\'] => none
  | '\\' :: c :: rest =>
    match escapeLetter? c with
    | some d => (unescape rest).map (d :: ·)
    | none => none
  | c :: rest => (unescape rest).map (c :: ·)

/-- A text in double quotes. -/
def quote (text : String) : String :=
  String.ofList ('"' :: escape text.toList ++ ['"'])

/-- The code points that have no shape of their own: control and format
characters, blanks other than the space, marks that combine with what comes
before them, and code points for private use or for none. The list covers the
blocks in common use. -/
def shapelessRanges : List (Nat × Nat) :=
  [(0x00, 0x1F), (0x7F, 0xA0), (0xAD, 0xAD), (0x300, 0x36F), (0x483, 0x489), (0x591, 0x5BD),
   (0x600, 0x605), (0x61C, 0x61C), (0x6DD, 0x6DD), (0x70F, 0x70F), (0x1680, 0x1680),
   (0x180E, 0x180E), (0x1AB0, 0x1ACE), (0x1DC0, 0x1DFF), (0x2000, 0x200F), (0x2028, 0x202F),
   (0x205F, 0x206F), (0x20D0, 0x20F0), (0x3000, 0x3000), (0xE000, 0xF8FF), (0xFE00, 0xFE0F),
   (0xFE20, 0xFE2F), (0xFEFF, 0xFEFF), (0xFFF0, 0xFFFB), (0xFFFE, 0xFFFF),
   (0x1BCA0, 0x1BCA3), (0x1D173, 0x1D17A), (0xE0000, 0x10FFFF)]

/-- Whether a character has no shape of its own. -/
def isShapeless (c : Char) : Bool :=
  shapelessRanges.any fun r => r.1 ≤ c.toNat && c.toNat ≤ r.2

/-- One character in single quotes, as messages show it. -/
def showChar (c : Char) : String :=
  let body := match c with
    | '\x00' => "\\0"
    | '\t' => "\\t"
    | '\r' => "\\r"
    | '\n' => "\\n"
    | '\'' => "\\'"
    | '\\' => "\\\\"
    | c =>
      if isShapeless c then "\\u\x7b" ++ String.ofList (Nat.toDigits 16 c.toNat) ++ "\x7d"
      else String.singleton c
  "'" ++ body ++ "'"

end Polyglot.Text
