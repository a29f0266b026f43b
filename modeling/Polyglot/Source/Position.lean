/-!
# Positions in a source text

A position is a line and a column, both counted from one and both counted in
characters: a tab, a combining accent and an ideograph are one column each. Only
a line feed starts a line.

A span is the stretch between two positions, both of which belong to it, so
that a span of one character has equal ends.
-/

namespace Polyglot.Source

/-- A position inside a source text. Positions are ordered by line, and within a
line by column. -/
structure Position where
  /-- The line, counted from one. -/
  line : Nat
  /-- The column, counted from one. -/
  column : Nat
  deriving DecidableEq, Repr, Inhabited

namespace Position

/-- The first position of every text. -/
def start : Position := ⟨1, 1⟩

/-- The position with these coordinates, a zero standing for a one. -/
def ofCoordinates (line column : Nat) : Position :=
  ⟨max line 1, max column 1⟩

/-- The position after a character that stands at this one. -/
def advance (p : Position) (c : Char) : Position :=
  if c = '\n' then ⟨p.line + 1, 1⟩ else ⟨p.line, p.column + 1⟩

/-- The position after a text that starts at this one. -/
def advanceBy (p : Position) (cs : List Char) : Position :=
  cs.foldl advance p

/-- Whether `p` comes before `q`. -/
def before (p q : Position) : Bool :=
  p.line < q.line || (p.line == q.line && p.column < q.column)

/-- The earlier of two positions. -/
def earlier (p q : Position) : Position := if q.before p then q else p

/-- The later of two positions. -/
def later (p q : Position) : Position := if q.before p then p else q

instance : ToString Position where
  toString p := s!"{p.line}:{p.column}"

@[simp] theorem advanceBy_nil (p : Position) : p.advanceBy [] = p := rfl

@[simp] theorem advanceBy_cons (p : Position) (c : Char) (cs : List Char) :
    p.advanceBy (c :: cs) = (p.advance c).advanceBy cs := rfl

theorem advanceBy_append (p : Position) (cs ds : List Char) :
    p.advanceBy (cs ++ ds) = (p.advanceBy cs).advanceBy ds :=
  List.foldl_append

end Position

/-- A stretch of source text, from its first character to its last. -/
structure Span where
  /-- The position of the first character. -/
  first : Position
  /-- The position of the last character. -/
  last : Position
  deriving DecidableEq, Repr, Inhabited

namespace Span

/-- The span of the single position `p`. -/
def ofPosition (p : Position) : Span := ⟨p, p⟩

/-- The span of a text that has no position of its own. -/
def start : Span := .ofPosition .start

/-- The span between two positions, given in either order. -/
def between (p q : Position) : Span :=
  if q.before p then ⟨q, p⟩ else ⟨p, q⟩

/-- The smallest span around two spans. -/
def merge (s t : Span) : Span :=
  ⟨s.first.earlier t.first, t.last.later s.last⟩

/-- Whether a position lies inside the span. -/
def contains (s : Span) (p : Position) : Bool :=
  !p.before s.first && !s.last.before p

/-- A span is written as its two ends, or as one position if they are equal. -/
instance : ToString Span where
  toString s :=
    if s.first = s.last then toString s.first
    else toString s.first ++ "-" ++ toString s.last

end Span

end Polyglot.Source
