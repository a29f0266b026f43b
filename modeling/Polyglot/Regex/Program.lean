import Polyglot.Regex.Basic
import Std.Data.TreeSet

/-!
# How regular expressions match

An expression is made into a program: steps in a row, of which one takes a
character, and the others – jumps, forks, conditions – take none. All jumps are
relative, so the steps of an expression are the same wherever they stand, and
the steps of a row are those of its factors one after the other. Each step list
is left at its end, and that is where what follows begins.

**All ways at once.** A text is followed through a program by keeping, at each
place, the steps that can be reached there, in the order of preference. A fork
names its preferred side first. A step that was reached before at the same place
is not entered again: what it leads to is in the list already, and is there with
a higher preference. So a place costs no more than the program is long, whatever
the expression, and nothing is ever tried twice.

**The first match in the order of preference.** The end of the program stands
for a match. When it is reached, the steps that come after it in the list can
only lead to matches of lower preference and are dropped; those before it may
still lead to better ones. The last match that was recorded is the answer.

**Rounds that take nothing.** A repetition of at least one round is its body
with a fork at its end that leads back. A round that took no character comes
back to steps that were entered already, and there it ends. This is what decides
the matches of a repetition whose body may match the empty text: such a round
has its turn wherever its steps are new, and no rule about it is needed.

A repetition of any number of rounds is one of at least one that is optional, so
there are two forks that lead into the body. Where every round takes a character
one fork does for both. The two ways are not the same for what is around them,
since the one fork may have been entered already where of two one is new.
-/

namespace Polyglot.Regex

/-- One step of a program. Jumps count from the step itself. -/
inductive Step where
  /-- Takes one character of a set and goes on. -/
  | take (set : CharSet)
  /-- Goes on where a condition holds. -/
  | look (kind : Look)
  /-- Goes on somewhere else. -/
  | jump (offset : Int)
  /-- Goes on at two places, of which the first is preferred. -/
  | fork (preferred other : Int)
  /-- A match is complete. -/
  | accept
  deriving DecidableEq, Repr

/-- A fork that a greedy repetition takes to its body, and a lazy one past it. -/
def forkFor (greedy : Bool) (body past : Int) : Step :=
  if greedy then .fork body past else .fork past body

/-- A body at most `n` times. Each round is only tried after the one before it,
and from each the rest is passed at once. -/
def upTo (greedy : Bool) (n : Nat) (body : List Step) : List Step :=
  (List.range n).flatMap fun i =>
    forkFor greedy 1 ((n - i) * (body.length + 1) : Nat) :: body

/-- A body at least `n` times, where `n` is not zero. -/
def atLeast (greedy : Bool) (n : Nat) (body : List Step) : List Step :=
  (List.replicate n body).flatten ++ [forkFor greedy (-(body.length : Int)) 1]

/-- A body any number of times. Where a round always takes something, the fork
in front of the first round is also that between two rounds. -/
def anyNumber (greedy takes : Bool) (body : List Step) : List Step :=
  if takes then
    forkFor greedy 1 (body.length + 2 : Nat) :: body ++ [.jump (-(body.length + 1 : Nat))]
  else upTo greedy 1 (atLeast greedy 1 body)

/-- The steps of an expression. -/
def steps : Regex → List Step
  | empty => []
  | look kind => [.look kind]
  | chars cs => cs.map fun c => .take (.singleton c)
  | one set => [.take set]
  | cat first second => first.steps ++ second.steps
  | alt left right =>
    let left := left.steps
    let right := right.steps
    .fork 1 (left.length + 2 : Nat) :: left ++ .jump (right.length + 1 : Nat) :: right
  | repeated low (some high) greedy body =>
    (List.replicate low body.steps).flatten ++ upTo greedy (high - low) body.steps
  | repeated 0 none greedy body => anyNumber greedy body.takes body.steps
  | repeated low none greedy body => atLeast greedy low body.steps
  | capture _ body => body.steps

/-- An expression made ready for matching. -/
structure Program where
  /-- The steps, the last of which accepts. -/
  steps : Array Step
  /-- Whether a match can only be at the start of the text. -/
  anchored : Bool
  deriving DecidableEq, Repr

/-- The program of an expression. -/
def program (r : Regex) : Program :=
  ⟨(r.steps ++ [Step.accept]).toArray, r.isAnchored⟩

namespace Program

/-- The step that a jump from a step leads to. -/
def target (i : Nat) (offset : Int) : Nat := (i + offset).toNat

/-- Follows the steps of a list, and all they lead to without a character,
between two characters. The result are the steps to go on with after the second
character, in the order of preference, and whether a match is complete here.
In hand are the steps that were entered here and those to go on with, the last
of them first. -/
def follow (p : Program) (before after : Option Char) :
    Nat → List Nat → Std.TreeSet Nat → List Nat → List Nat × Bool
  | 0, _, _, next => (next.reverse, false)
  | _ + 1, [], _, next => (next.reverse, false)
  | fuel + 1, i :: rest, entered, next =>
    if entered.contains i then p.follow before after fuel rest entered next
    else
      let entered := entered.insert i
      match p.steps[i]? with
      | none => p.follow before after fuel rest entered next
      | some (.take set) =>
        if after.any set.contains then p.follow before after fuel rest entered ((i + 1) :: next)
        else p.follow before after fuel rest entered next
      | some (.look kind) =>
        if kind.holds before after then
          p.follow before after fuel ((i + 1) :: rest) entered next
        else p.follow before after fuel rest entered next
      | some (.jump offset) =>
        p.follow before after fuel (target i offset :: rest) entered next
      | some (.fork preferred other) =>
        p.follow before after fuel (target i preferred :: target i other :: rest) entered next
      | some .accept => (next.reverse, true)

/-- Follows the steps of a list between two characters. Each step is entered at
most once and leads to at most two others, which bounds the work. -/
def advance (p : Program) (before after : Option Char) (starts : List Nat) : List Nat × Bool :=
  p.follow before after (starts.length + 2 * p.steps.size + 1) starts ∅ []

/-- The end of the match, when the steps of a list are to go on with at position
`position` and `best` is the end of the best match so far. -/
def endFrom (p : Program) (before : Option Char) (starts : List Nat) (position : Nat)
    (best : Option Nat) : List Char → Option Nat
  | [] => if (p.advance before none starts).2 then some position else best
  | c :: rest =>
    let (next, complete) := p.advance before (some c) starts
    let best := if complete then some position else best
    if next.isEmpty then best else p.endFrom (some c) next (position + 1) best rest

/-- The end of the match that starts at a position, if there is one. -/
def endAt? (p : Program) (before : Option Char) (position : Nat) (text : List Char) :
    Option Nat :=
  p.endFrom before [0] position none text

/-- The first match that starts at a position or later: its start and its end. -/
def findFrom (p : Program) (before : Option Char) (position : Nat) :
    List Char → Option (Nat × Nat)
  | [] => (p.endAt? before position []).map (position, ·)
  | c :: rest =>
    match p.endAt? before position (c :: rest) with
    | some last => some (position, last)
    | none => p.findFrom (some c) (position + 1) rest

/-- The first match in a text, as the positions where it starts and where it
ends, counted in characters. -/
def find? (p : Program) (text : List Char) : Option (Nat × Nat) :=
  if p.anchored then (p.endAt? none 0 text).map (0, ·) else p.findFrom none 0 text

/-- Whether a text has a match. -/
def isMatch (p : Program) (text : List Char) : Bool :=
  (p.find? text).isSome

end Program

end Polyglot.Regex
