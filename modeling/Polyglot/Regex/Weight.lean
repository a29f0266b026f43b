import Polyglot.Regex.Basic
import Polyglot.Regex.ByteRows
import Std.Data.TreeMap

/-!
# The weight of regular expressions

A short expression can stand for a huge machine, since counts multiply. An
expression whose machine would take up too many bytes of memory is refused.

**What is weighed** is a machine over the bytes of UTF-8: so much for each of its
states, and something more for each way out of a state that can have several. No
machine is made, only its size is kept while it grows. There are two machines,
one that reads forwards and one that reads backwards, and each has to keep the
limit. Only the first notes where groups begin and end.

**Equal states are shared, as far as they are remembered.** The states of a set
of characters are looked up before they are added, in a memory with a fixed
number of places. A state has its place by its hash, and one that comes to the
same place displaces the one that is there. Since the hash takes in the numbers
of the states that a state leads to, the size of a set depends on how many states
there are before it. That is why sizes are grown and not added up.
-/

namespace Polyglot.Regex

/-- The number of bytes that a machine may take up. -/
def weightLimit : Nat := 10 * 1024 * 1024

/-- The size of a machine. -/
structure Size where
  /-- The number of states. -/
  states : Nat
  /-- The bytes for the ways out of states that can have several. -/
  ways : Nat
  deriving DecidableEq, Repr

namespace Size

/-- The bytes that a machine takes up. -/
def bytes (s : Size) : Nat := 32 * s.states + s.ways

/-- Adds states with a single way out. -/
def plain (s : Size) (n : Nat) : Size := { s with states := s.states + n }

/-- Adds a state that can be left without reading, in so many ways. -/
def fork (s : Size) (ways : Nat) : Size := ⟨s.states + 1, s.ways + 4 * ways⟩

/-- Adds a state that is left by reading one of several ranges of bytes. -/
def spread (s : Size) (ways : Nat) : Size := ⟨s.states + 1, s.ways + 8 * ways⟩

/-- Adds the same part again and again. Once the limit is passed, it does not
matter by how much. -/
def repeated (s : Size) (n : Nat) (grow : Size → Size) : Size :=
  match n with
  | 0 => s
  | n + 1 => if weightLimit < s.bytes then s else (grow s).repeated n grow

end Size

/-- The direction in which a machine reads. -/
inductive Direction where
  /-- From the start of the text. -/
  | forwards
  /-- From the end of the text. -/
  | backwards
  deriving DecidableEq, Repr

/-! ## Sets of characters -/

/-- The hash of a list of numbers: each in turn is mixed into the hash so far,
which is then multiplied by a prime. -/
def hashOf (numbers : List Nat) : UInt64 :=
  numbers.foldl (fun h n => (h ^^^ n.toUInt64) * 1099511628211) 14695981039346656037

/-- A machine that grows, with a memory of states. A state is remembered by what
it reads and where it leads to. -/
structure Workshop where
  /-- The size of the machine. -/
  size : Size
  /-- The number of places of the memory. -/
  places : Nat
  /-- The state at each place that is taken, and its number. -/
  memory : Std.TreeMap Nat (List Nat × Nat) := ∅

namespace Workshop

/-- The place of a key in the memory. -/
def placeOf (w : Workshop) (key : List Nat) : Nat := (hashOf key).toNat % w.places

/-- The number of the state that is remembered by a key. -/
def known? (w : Workshop) (key : List Nat) : Option Nat :=
  match w.memory[w.placeOf key]? with
  | some (other, state) => if other = key then some state else none
  | none => none

/-- The number of the state with a key. If none is remembered, one is added, and
takes the place of the key. -/
def stateFor (w : Workshop) (key : List Nat) (add : Size → Size) : Nat × Workshop :=
  match w.known? key with
  | some state => (state, w)
  | none =>
    let state := w.size.states
    (state, { w with size := add w.size, memory := w.memory.insert (w.placeOf key) (key, state) })

end Workshop

/-- Adds the states that read one of some byte rows forwards and then go to
`target`. The result is the number of the first of them. The states that come
later are added earlier. -/
def growRows (target : Nat) : Nat → List (List CharSet.ByteRange) → Workshop → Nat × Workshop
  | 0, _, w => (target, w)
  | fuel + 1, rows, w =>
    match CharSet.rowGroups rows with
    | [] => (target, w)
    | groups =>
      let (key, w) := groups.foldl
        (fun (key, w) (range, tails) =>
          let (next, w) := growRows target fuel tails w
          (key ++ [range.1, range.2, next], w))
        ([], w)
      w.stateFor key (·.spread groups.length)

/-- Adds the states that read a byte row backwards and then go to `target`. -/
def growRowBackwards (target : Nat) (row : List CharSet.ByteRange) (w : Workshop) : Workshop :=
  (row.foldl
    (fun (next, w) (low, high) => w.stateFor [next, low, high] (·.plain 1)) (target, w)).2

/-- Adds one character of a set, whose characters are single bytes if they are
ASCII. Backwards, every byte row is a way of its own, and fewer states are
remembered. -/
def growSet (d : Direction) (set : CharSet) (s : Size) : Size :=
  if set.isAscii then (s.plain 1).spread set.ranges.length
  else
    let rows := set.byteRows
    match d with
    | .forwards => (growRows s.states 5 rows ⟨s.plain 1, 10000, ∅⟩).2.size
    | .backwards =>
      let start := s.fork rows.length
      (rows.foldl (fun w row => growRowBackwards start.states row w)
        ⟨start.plain 1, 1000, ∅⟩).size

/-! ## Choices of texts -/

/-- The words of a list between the empty ones. -/
def wordRuns : List (List Nat) → List (List (List Nat))
  | [] => [[]]
  | [] :: words => [] :: wordRuns words
  | word :: words =>
    match wordRuns words with
    | run :: runs => (word :: run) :: runs
    | [] => [[word]]

/-- The first letters of words, each with what is left of the words that begin
with it. -/
def wordGroups : List (List Nat) → List (Nat × List (List Nat))
  | [] => []
  | [] :: words => wordGroups words
  | (a :: word) :: words =>
    let groups := wordGroups words
    match groups.lookup a with
    | some tails => (a, word :: tails) :: groups.filter (·.1 != a)
    | none => (a, [word]) :: groups

/-- Adds the states that read one of some words, which share what they have in
common at the front. A word that ends where others go on keeps those before it
and those after it apart, since the order of preference must be kept. -/
def growWords : Nat → List (List Nat) → Size → Size
  | 0, _, s => s
  | fuel + 1, words, s =>
    let goesOn := words.dropWhile List.isEmpty
    if goesOn.isEmpty then s
    else
      let ends := goesOn.count [] + (if goesOn.length < words.length then 1 else 0)
      let runs := (wordRuns goesOn).filter (!·.isEmpty)
      runs.foldl
        (fun s run =>
          let groups := wordGroups run
          groups.foldl (fun s group => growWords fuel group.2 s)
            (if groups.length = 1 then s.plain 1 else s.spread groups.length))
        (s.fork (runs.length + ends))

/-- The texts that an expression is a choice of, if it is nothing else. -/
def texts? : Regex → Option (List (List Char))
  | chars cs => some [cs]
  | alt left right => do return (← left.texts?) ++ (← right.texts?)
  | _ => none

/-- The bytes of a text. -/
def bytesOf (cs : List Char) : List Nat :=
  (String.ofList cs).toUTF8.toList.map UInt8.toNat

/-- Adds a choice of texts. -/
def growTexts (d : Direction) (texts : List (List Char)) (s : Size) : Size :=
  let words := texts.map fun cs =>
    match d with
    | .forwards => bytesOf cs
    | .backwards => (bytesOf cs).reverse
  growWords (words.foldl (fun n word => max n word.length) 0 + 1) words (s.plain 1)

/-! ## Expressions -/

/-- Whether an expression is a choice. -/
def isChoice : Regex → Bool
  | alt _ _ => true
  | _ => false

/-- Adds what a choice needs for one of its branches. The states at its two ends
are added with the second branch. -/
def joinBranch (branch : Nat) (s : Size) : Size :=
  match branch with
  | 0 => s
  | 1 => (s.fork 2).plain 1
  | _ => { s with ways := s.ways + 4 }

/-- Adds the machine of an expression, which is the choice of the branches of a
choice from the given one on. -/
def grow (d : Direction) (branch : Nat) : Regex → Size → Size
  | empty, s => s.plain 1
  | look _, s => s.plain 1
  | chars cs, s => s.plain (String.ofList cs).utf8ByteSize
  | one set, s => growSet d set s
  | cat first second, s =>
    match d with
    | .forwards => second.grow d 0 (first.grow d 0 s)
    | .backwards => first.grow d 0 (second.grow d 0 s)
  | alt left right, s =>
    match branch, (alt left right).texts? with
    | 0, some texts => growTexts d texts s
    | _, _ =>
      let s := joinBranch branch (left.grow d 0 s)
      if right.isChoice then right.grow d (branch + 1) s
      else joinBranch (branch + 1) (right.grow d 0 s)
  | repeated low high _ body, s =>
    match low, high with
    | 0, some 1 => (body.grow d 0 (s.fork 2)).plain 1
    | 0, none =>
      if body.takes then body.grow d 0 (s.fork 2)
      else (((body.grow d 0 s).fork 2).fork 2).plain 1
    | low, none => (s.repeated low (body.grow d 0)).fork 2
    | low, some high =>
      let s := if low = 0 then s.plain 1 else s.repeated low (body.grow d 0)
      if low = high then s
      else (s.plain 1).repeated (high - low) fun s => body.grow d 0 (s.fork 2)
  | capture _ body, s =>
    match d with
    | .forwards => (body.grow d 0 (s.plain 1)).plain 1
    | .backwards => body.grow d 0 s

/-- The size of the whole machine of an expression, at least if it keeps the
limit. If a match need not be at the end of the text that the machine begins
with, it first skips any bytes. Then it looks for a match, which is a group as a
whole, and accepts. -/
def size (r : Regex) (d : Direction) : Size :=
  let isBound := match d with
    | .forwards => r.isAnchored
    | .backwards => r.isAnchoredAtEnd
  let s : Size := ⟨0, 0⟩
  let s := if isBound then s.plain 1 else ((s.fork 2).plain 1).spread 1
  ((capture 0 r).grow d 0 s).plain 1

/-- Whether one of the machines of an expression takes up too many bytes. -/
def isTooHeavy (r : Regex) : Bool :=
  weightLimit < (r.size .backwards).bytes || weightLimit < (r.size .forwards).bytes

end Polyglot.Regex
