/-!
# Blank characters

The characters with the Unicode property `White_Space`. There are twenty-five
of them, a closed list that the standard has not changed for years, so they
are listed as ranges of code points. Trimming a line, reading an integer and
the class `\s` of a regular expression all mean these characters, and none of
them means the shorter list of ASCII blanks.
-/

namespace Polyglot.Text

/-- The ranges of code points of the blank characters, both ends included. -/
def blankRanges : List (Nat × Nat) :=
  [(0x09, 0x0D), (0x20, 0x20), (0x85, 0x85), (0xA0, 0xA0), (0x1680, 0x1680),
   (0x2000, 0x200A), (0x2028, 0x2029), (0x202F, 0x202F), (0x205F, 0x205F),
   (0x3000, 0x3000)]

/-- Whether a character has the property `White_Space`. -/
def isBlank (c : Char) : Bool :=
  blankRanges.any fun r => r.1 ≤ c.toNat && c.toNat ≤ r.2

/-- The text without the blanks at its two ends. -/
def trim (cs : List Char) : List Char :=
  ((cs.dropWhile isBlank).reverse.dropWhile isBlank).reverse

/-- A plain space is blank. -/
@[simp] theorem isBlank_space : isBlank ' ' = true := by decide

/-- A line feed is blank. -/
@[simp] theorem isBlank_newline : isBlank '\n' = true := by decide

end Polyglot.Text
