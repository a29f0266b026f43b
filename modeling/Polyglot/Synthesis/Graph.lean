import Polyglot.Language.Error
import Polyglot.Synthesis.Artifact
import Polyglot.Synthesis.Pipeline

/-!
# Graphs of transforms

The kinds of artifacts are the nodes of a graph, and its edges are transforms of
one step. To make an artifact of one kind out of another is to find the shortest
chain of edges between the kinds, and to take the artifact through it as through
a pipeline whose stages are named after the kinds they lead to.

Chains are found by breadth-first search. A kind is reached once, by the first
edge that leads to it, and every kind that was reached is kept *with the chain
that led to it*; so there is nothing to trace back afterwards. Edges are tried in
the order they were added in, which decides between chains of the same length.
-/

namespace Polyglot

/-- Why a transform fails. -/
inductive TransformError where
  /-- The artifact has another shape than the transform takes. -/
  | shape (e : ShapeError)
  /-- The language of the artifact refuses it. -/
  | language (e : LanguageError)
  /-- The transform has a reason of its own. -/
  | refused (reason : String)

namespace TransformError

/-- The error and what caused it, as separate messages. -/
def chain : TransformError → List String
  | shape e => [e.message]
  | language e => e.chain
  | refused reason => [reason]

/-- The error of a language that is behind it. -/
def language? : TransformError → Option LanguageError
  | language e => some e
  | _ => none

end TransformError

/-- A transform of one step. -/
structure Edge where
  /-- The kind it starts from. -/
  source : String
  /-- The kind it leads to. -/
  target : String
  /-- What it does. -/
  transform : Artifact → Except TransformError Artifact

/-- An edge is shown as its two ends. -/
instance : ToString Edge where
  toString e := s!"{e.source} -> {e.target}"

/-- A graph of transforms. -/
structure Graph where
  /-- The edges, in the order they were added in. -/
  edges : List Edge := []

/-- Why there is no chain of edges. -/
inductive PathError where
  /-- A kind is none of those of the graph. -/
  | unknownKind (kind : String) (known : List String)
  /-- Nothing leads from one kind to the other. -/
  | unreachable (target source : String)
  deriving DecidableEq, Repr

/-- The wording of the error. -/
def PathError.message : PathError → String
  | unknownKind kind known =>
    s!"Unknown artifact kind {kind}, the known ones are: " ++ ", ".intercalate known
  | unreachable target source => s!"Cannot synthesize {target} from {source}"

/-- Why no artifact can be made. -/
inductive SynthesisError where
  /-- There is no chain of edges. -/
  | path (e : PathError)
  /-- A stage of the pipeline fails. -/
  | pipeline (e : PipelineError TransformError)
  /-- There is no language with this name. -/
  | unknownLanguage (name : String)
  /-- No language reads the source. -/
  | unreadable
  /-- What was to be made of a source in a language, and why it was not. -/
  | failed (target language : String) (cause : SynthesisError)

namespace SynthesisError

/-- The error and what caused it, as separate messages. -/
def chain : SynthesisError → List String
  | path e => [e.message]
  | pipeline e => e.chain TransformError.chain
  | unknownLanguage name => [s!"Unknown language {name}"]
  | unreadable => ["The source is not valid in any of the known languages"]
  | failed target language cause =>
    s!"Failed to synthesize {target} from {language}" :: cause.chain

/-- The error of a language that is behind it. -/
def language? : SynthesisError → Option LanguageError
  | pipeline (.stage _ e) => e.language?
  | failed _ _ cause => cause.language?
  | _ => none

end SynthesisError

namespace Graph

/-- The kinds of a graph, in the order they are come across. -/
def kinds (g : Graph) : List String :=
  (g.edges.flatMap fun e => [e.source, e.target]).eraseDups

/-- A kind that was reached, with the numbers of the edges that led to it. -/
abbrev Reached := String × List Nat

/-- What numbered edges reach for the first time, coming from a place. -/
def discover (place : Reached) : List (Edge × Nat) → List Reached → List Reached
  | [], _ => []
  | (edge, index) :: rest, known =>
    if edge.source == place.1 && (known.lookup edge.target).isNone then
      let found := (edge.target, place.2 ++ [index])
      found :: discover place rest (known ++ [found])
    else discover place rest known

/-- Goes on from the places in a queue, which are among the known ones. Every
round takes one place, and no kind is in the queue twice. -/
def search (g : Graph) : Nat → List Reached → List Reached → List Reached
  | 0, _, known => known
  | _, [], known => known
  | rounds + 1, place :: queue, known =>
    let found := discover place g.edges.zipIdx known
    g.search rounds (queue ++ found) (known ++ found)

/-- Everything that can be reached from a kind. Apart from the kind itself, every
place needs an edge of its own. -/
def reachable (g : Graph) (source : String) : List Reached :=
  g.search (g.edges.length + 1) [(source, [])] [(source, [])]

/-- The shortest chain of edges between two kinds. -/
def shortestPath (g : Graph) (source target : String) : Except PathError (List Nat) :=
  match (g.reachable source).lookup target with
  | some path => .ok path
  | none => .error (.unreachable target source)

/-- The chain of edges that stops at kinds in order, the shortest one from stop to
stop. -/
def pathThrough (g : Graph) : List String → Except PathError (List Nat)
  | source :: target :: rest => do
    let path ← g.shortestPath source target
    return path ++ (← g.pathThrough (target :: rest))
  | _ => .ok []

/-- The chain of edges from one kind to another by way of others. -/
def path (g : Graph) (source target : String) (via : List String) :
    Except PathError (List Nat) :=
  let stops := source :: via ++ [target]
  match stops.find? fun kind => !g.kinds.contains kind with
  | some kind => .error (.unknownKind kind g.kinds)
  | none => g.pathThrough stops

/-- Takes an artifact through edges. -/
def follow (p : Pipeline Artifact) : List Edge → Except SynthesisError (Pipeline Artifact)
  | [] => .ok p
  | e :: es => do
    let p ← (p.andThen e.target fun a _ => e.transform a).mapError .pipeline
    follow p es

/-- Makes an artifact of one kind out of one of another kind, by way of others. -/
def synthesize (g : Graph) (target : String) (artifact : Artifact) (source : String)
    (via : List String) : Except SynthesisError Artifact := do
  let path ← (g.path source target via).mapError .path
  let p ← follow ⟨artifact, {}⟩ (path.filterMap fun index => g.edges[index]?)
  return p.value

end Graph

end Polyglot
