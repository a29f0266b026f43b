import Polyglot.Tree.Basic

/-!
# Shaking trees

The tree that a parser gives is as deep as the grammar, and much of it says
nothing: trees that only hold repetitions or groups together, and rules that are
there for the sake of precedence. Shaking takes them out.

* A tree that is *spliced* is replaced by the trees below it. All trees that the
  grammar made up are spliced, and those whose names a language lists. The root
  stays in any case.
* A tree that is *chained* takes over the trees below its last child if that has
  the same name, so that a list written as a head and a tail becomes flat.

The label of a spliced tree moves to those of the trees below that have none.
-/

namespace Polyglot

/-- Whether a name was made up by the grammar, for a repetition or for a group. -/
def isGenerated (name : String) : Bool :=
  let cs := name.toList
  cs.getLast? == some '?' || cs.getLast? == some '*' || cs.getLast? == some '+'
    || cs.contains ':' || cs.contains '~'

/-- What to shake out of a tree. -/
structure Shake where
  /-- The names of the trees to splice, besides those that the grammar made up. -/
  splice : List String := []
  /-- The names of the trees to chain. -/
  chain : List String := []
  deriving DecidableEq, Repr

namespace Shake

/-- Whether trees of a name are spliced. -/
def isSpliced (s : Shake) (name : String) : Bool :=
  isGenerated name || s.splice.contains name

/-- The trees below a chained tree, with those below the last child in the place
of that child if it has the same name. -/
def chained (name : String) (children : List Tree) : List Tree :=
  match children.getLast? with
  | none => children
  | some last =>
    if last.name = name then children.dropLast ++ last.children else children

/-- The trees to put below a tree of a name, given the shaken ones. -/
def absorb (s : Shake) (name : String) (children : List Tree) : List Tree :=
  if s.chain.contains name then chained name children else children

/-- The tree with a label in case it has none. -/
def inheritLabel (label : Option String) (t : Tree) : Tree :=
  if t.label.isSome then t else t.withLabel label

mutual

/-- What becomes of a tree that is not the root. -/
def shakeInner (s : Shake) : Tree → List Tree
  | .leaf name label terminal token => [.leaf name label terminal token]
  | .node name label choice children =>
    let children := s.shakeList children
    if s.isSpliced name then children.map (inheritLabel label)
    else [.node name label choice (s.absorb name children)]

/-- What becomes of a list of trees. -/
def shakeList (s : Shake) : List Tree → List Tree
  | [] => []
  | t :: ts => s.shakeInner t ++ s.shakeList ts

end

/-- The shaken tree. -/
def shake (s : Shake) : Tree → Tree
  | .leaf name label terminal token => .leaf name label terminal token
  | .node name label choice children =>
    .node name label choice (s.absorb name (s.shakeList children))

end Shake

end Polyglot
