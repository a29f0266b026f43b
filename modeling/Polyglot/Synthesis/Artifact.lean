import Polyglot.Machine.Program
import Polyglot.Tree.Json

/-!
# Artifacts

An artifact is what is made of a source on the way to something else: a text, a
tree or a program. A transform that takes one shape of artifact refuses the
others.
-/

namespace Polyglot

open Polyglot.Machine (Program)

/-- What an artifact is made of. -/
inductive Shape where
  /-- A text. -/
  | text
  /-- A tree, raw or shaken. -/
  | tree
  /-- A program of the machine. -/
  | program
  deriving DecidableEq, Repr

/-- What a shape is called. -/
def Shape.name : Shape → String
  | .text => "text"
  | .tree => "syntax tree"
  | .program => "program"

/-- An artifact has another shape than was asked for. -/
structure ShapeError where
  /-- The shape that was asked for. -/
  expected : Shape
  /-- The shape of the artifact. -/
  found : Shape
  deriving DecidableEq, Repr

/-- The wording of the error. Of text there is no single piece. -/
def ShapeError.message (e : ShapeError) : String :=
  let expected := match e.expected with
    | .text => "text"
    | shape => "a " ++ shape.name
  s!"Expecting {expected}, found a {e.found.name}"

/-- An artifact. -/
inductive Artifact where
  /-- A text. -/
  | text (text : String)
  /-- A tree, raw or shaken. -/
  | tree (tree : Tree)
  /-- A program of the machine. -/
  | program (program : Program)

namespace Artifact

/-- The shape of an artifact. -/
def shape : Artifact → Shape
  | text _ => .text
  | tree _ => .tree
  | program _ => .program

/-- The text that an artifact is. -/
def asText : Artifact → Except ShapeError String
  | text t => .ok t
  | other => .error ⟨.text, other.shape⟩

/-- The tree that an artifact is. -/
def asTree : Artifact → Except ShapeError Tree
  | tree t => .ok t
  | other => .error ⟨.tree, other.shape⟩

/-- The program that an artifact is. -/
def asProgram : Artifact → Except ShapeError Program
  | program p => .ok p
  | other => .error ⟨.program, other.shape⟩

/-- The artifact as it is written to a file of text: a tree as a document, and a
program as words. -/
def render : Artifact → String
  | text t => t
  | tree t => t.toJson.pretty
  | program p => p.toHex

/-- The artifact as it is shown to people. -/
instance : ToString Artifact where
  toString
    | text t => t
    | tree t => t.brackets
    | program p => p.listing

end Artifact

end Polyglot
