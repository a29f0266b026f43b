import Polyglot.Tree.Basic

/-!
# Visiting trees

A visit is a walk over a tree with a state, which may fail. A visitor treats some
trees in a special way and leaves the others to a rule for inner trees and one
for leaves.

The rule for inner trees gets the visits of the trees below *before they are
made*. It may make them all, some of them, or none, and do something before,
between and after. The state that a failed visit leaves behind is kept.
-/

namespace Polyglot

/-- A step of a walk: it has a state of type `σ`, and gives an `α` or fails with
an `ε`. -/
abbrev Visit (σ ε α : Type) := ExceptT ε (StateM σ) α

/-- How the trees of a walk are treated. -/
structure Visitor (σ ε α : Type) where
  /-- The special treatment of a tree, if it gets any. -/
  special : Tree → Option (Visit σ ε α) := fun _ => none
  /-- The rule for inner trees. -/
  inner : Tree → List (Visit σ ε α) → Visit σ ε α
  /-- The rule for leaves. -/
  leaf : Tree → Token → Visit σ ε α

namespace Visitor

variable {σ ε α : Type}

mutual

/-- The visit of a tree. -/
def visit (v : Visitor σ ε α) : Tree → Visit σ ε α
  | .leaf name label terminal token =>
    match v.special (.leaf name label terminal token) with
    | some treatment => treatment
    | none => v.leaf (.leaf name label terminal token) token
  | .node name label choice children =>
    match v.special (.node name label choice children) with
    | some treatment => treatment
    | none => v.inner (.node name label choice children) (v.visits children)

/-- The visits of a list of trees, not made yet. -/
def visits (v : Visitor σ ε α) : List Tree → List (Visit σ ε α)
  | [] => []
  | t :: ts => v.visit t :: v.visits ts

end

/-- Makes visits one after the other, until one fails. -/
def inOrder : List (Visit σ ε α) → Visit σ ε (List α)
  | [] => pure []
  | x :: xs => do
    let a ← x
    return a :: (← inOrder xs)

/-- Makes visits one after the other and combines what they give. -/
def combining (combine : α → α → α) (start : α) : List (Visit σ ε α) → Visit σ ε α
  | [] => pure start
  | x :: xs => do combining combine (combine start (← x)) xs

/-- Visits the trees below a tree. -/
def visitChildren (v : Visitor σ ε α) (t : Tree) : Visit σ ε (List α) :=
  inOrder (v.visits t.children)

end Visitor

end Polyglot
