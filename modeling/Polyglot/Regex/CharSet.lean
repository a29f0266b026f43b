import Polyglot.Text.Blank
import Polyglot.Text.Word

/-!
# Sets of characters

A set of characters is a list of ranges of code points. The ranges rise and no
two of them touch, so that a set has one form only: equal sets are equal as
data, a set of one character can be told from others by its list, and the set
without characters is the empty list.

**Three operations carry the rest.** A range is put into a set by `insert`,
which merges it with what it touches; a union inserts the ranges of one side
into the other; a complement lists the gaps. The other operations of classes
are made of these by the laws of sets.

**Surrogates are no characters.** Their code points lie in the middle of the
scale, so a complement must not take them up. It counts them as present before
it lists the gaps, and a set that is a complement never has one.
-/

namespace Polyglot

/-- A set of characters, as ranges of code points with both ends included. -/
structure CharSet where
  /-- The ranges, in rising order, with a gap between any two. -/
  ranges : List (Nat × Nat)
  deriving DecidableEq, Repr

namespace CharSet

/-- Whether a character is in a set. -/
def contains (s : CharSet) (c : Char) : Bool :=
  s.ranges.any fun r => r.1 ≤ c.toNat && c.toNat ≤ r.2

/-- The set without characters. -/
def empty : CharSet := ⟨[]⟩

/-- The set of one character. -/
def singleton (c : Char) : CharSet := ⟨[(c.toNat, c.toNat)]⟩

/-- The characters between two code points, both included. -/
def range (low high : Nat) : CharSet := ⟨[(low, high)]⟩

/-- The one character of a set, if there is exactly one. -/
def single? (s : CharSet) : Option Char :=
  match s.ranges with
  | [(low, high)] => if low = high then some (Char.ofNat low) else none
  | _ => none

/-- Puts a range among others and merges it with those that it touches. -/
def insertRange (low high : Nat) : List (Nat × Nat) → List (Nat × Nat)
  | [] => [(low, high)]
  | (first, last) :: rest =>
    if high + 1 < first then (low, high) :: (first, last) :: rest
    else if last + 1 < low then (first, last) :: insertRange low high rest
    else insertRange (min low first) (max high last) rest

/-- The characters that are in one of two sets. -/
def union (s t : CharSet) : CharSet :=
  ⟨s.ranges.foldr (fun r ranges => insertRange r.1 r.2 ranges) t.ranges⟩

/-- The characters that are in one of the sets of a list. -/
def unionOfList (sets : List CharSet) : CharSet := sets.foldr union empty

/-- The last code point. -/
def lastCodePoint : Nat := 0x10FFFF

/-- What rising ranges leave out from a code point on. -/
def gaps (start : Nat) : List (Nat × Nat) → List (Nat × Nat)
  | [] => if start ≤ lastCodePoint then [(start, lastCodePoint)] else []
  | (first, last) :: rest =>
    if start < first then (start, first - 1) :: gaps (last + 1) rest else gaps (last + 1) rest

/-- The characters that are not in a set. -/
def complement (s : CharSet) : CharSet :=
  ⟨gaps 0 (insertRange 0xD800 0xDFFF s.ranges)⟩

/-- The characters that are in both of two sets. -/
def intersection (s t : CharSet) : CharSet :=
  (s.complement.union t.complement).complement

/-- The characters of one set that are not in another. -/
def difference (s t : CharSet) : CharSet := s.intersection t.complement

/-- The characters that are in exactly one of two sets. -/
def symmetricDifference (s t : CharSet) : CharSet :=
  (s.difference t).union (t.difference s)

/-- The decimal digits. -/
def digit : CharSet := ⟨Text.digitRanges⟩

/-- The word characters. -/
def word : CharSet := ⟨Text.wordRanges⟩

/-- The blank characters. -/
def blank : CharSet := ⟨Text.blankRanges⟩

/-- Every character but the line feed. -/
def anyInLine : CharSet := complement (singleton '\n')

@[simp] theorem contains_empty (c : Char) : empty.contains c = false := rfl

@[simp] theorem contains_singleton (c d : Char) : (singleton c).contains d = (d == c) := by
  have : (decide (c.toNat ≤ d.toNat) && decide (d.toNat ≤ c.toNat)) = (d == c) := by
    rw [Bool.eq_iff_iff]
    simp only [Bool.and_eq_true, decide_eq_true_eq, beq_iff_eq]
    exact ⟨fun h => Char.toNat_inj.1 (Nat.le_antisymm h.2 h.1),
      fun h => h ▸ ⟨Nat.le_refl _, Nat.le_refl _⟩⟩
  simpa [contains, singleton] using this

@[simp] theorem contains_blank (c : Char) : blank.contains c = Text.isBlank c := rfl

@[simp] theorem contains_word (c : Char) : word.contains c = Text.isWord c := rfl

/-- The point stands for every character but the line feed. -/
@[simp] theorem contains_anyInLine (c : Char) : anyInLine.contains c = (c != '\n') := by
  have ranges : anyInLine = ⟨[(0, 9), (11, 0xD7FF), (0xE000, 0x10FFFF)]⟩ := by decide
  have valid : c.toNat < 0xD800 ∨ 0xDFFF < c.toNat ∧ c.toNat < 0x110000 := c.valid
  have feed : c = '\n' ↔ c.toNat = 10 := Char.toNat_inj.symm
  rw [Bool.eq_iff_iff]
  simp only [ranges, contains, List.any_cons, List.any_nil, Bool.or_false, Bool.or_eq_true,
    Bool.and_eq_true, decide_eq_true_eq, bne_iff_ne, ne_eq, feed]
  omega

end CharSet

end Polyglot
