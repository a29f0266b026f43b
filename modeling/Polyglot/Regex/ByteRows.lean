import Polyglot.Regex.CharSet

/-!
# Sets of characters as rows of bytes

A machine that reads bytes and not characters needs to know which bytes the
characters of a set have. A *byte row* is a range of bytes for each byte of a
character, and stands for the characters whose bytes are in these ranges, each
chosen freely. A set of characters is a list of byte rows in rising order.

**A range is cut where the bytes after the first do not all occur.** From the
lowest character up to the end of its block, then the full blocks, then from the
start of the last block: each of these parts has the first byte fixed or the
other bytes free. The incomplete blocks are cut again in the same way.
-/

namespace Polyglot.CharSet

/-- A range of bytes, both ends included. -/
abbrev ByteRange := Nat × Nat

/-- The bytes that can follow the first byte of a character. -/
def continuation : ByteRange := (0x80, 0xBF)

/-- The byte rows of a range of values that have `k` bytes of six bits after the
first, which counts from `lead`. -/
def rangeRows (lead : Nat) : Nat → Nat → Nat → List (List ByteRange)
  | 0, low, high => [[(lead + low, lead + high)]]
  | k + 1, low, high =>
    let block := 1 <<< (6 * (k + 1))
    let first := low / block
    let last := high / block
    let inBlock (value low high : Nat) :=
      (rangeRows continuation.1 k low high).map ((lead + value, lead + value) :: ·)
    if first = last then inBlock first (low % block) (high % block)
    else
      let cutsLow := low % block != 0
      let cutsHigh := high % block != block - 1
      let least := if cutsLow then first + 1 else first
      let most := if cutsHigh then last - 1 else last
      (if cutsLow then inBlock first (low % block) (block - 1) else [])
        ++ (if least ≤ most then
          [(lead + least, lead + most) :: List.replicate (k + 1) continuation] else [])
        ++ (if cutsHigh then inBlock last 0 (high % block) else [])

/-- The lengths of characters in UTF-8: the code points of that length, what the
first byte counts from, and the number of bytes after it. Surrogates have no
bytes. -/
def byteLengths : List (Nat × Nat × Nat × Nat) :=
  [(0, 0x7F, 0, 0), (0x80, 0x7FF, 0xC0, 1), (0x800, 0xD7FF, 0xE0, 2), (0xE000, 0xFFFF, 0xE0, 2),
   (0x10000, 0x10FFFF, 0xF0, 3)]

/-- The byte rows of a set of characters, in rising order. -/
def byteRows (s : CharSet) : List (List ByteRange) :=
  s.ranges.flatMap fun (low, high) =>
    byteLengths.flatMap fun (first, last, lead, k) =>
      let low := max low first
      let high := min high last
      if low ≤ high then rangeRows lead k low high else []

/-- Whether a set has only ASCII characters. -/
def isAscii (s : CharSet) : Bool := s.ranges.all (·.2 < 0x80)

/-- The first ranges of rows, each with what is left of the rows that begin with
it. In rising order, rows that begin alike are next to each other. -/
def rowGroups : List (List ByteRange) → List (ByteRange × List (List ByteRange))
  | [] => []
  | [] :: rows => rowGroups rows
  | (r :: row) :: rows =>
    match rowGroups rows with
    | (s, tails) :: groups =>
      if r = s then (s, row :: tails) :: groups else (r, [row]) :: (s, tails) :: groups
    | [] => [(r, [row])]

end Polyglot.CharSet
