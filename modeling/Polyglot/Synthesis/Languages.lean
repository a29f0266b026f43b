import Polyglot.Assembly.Assemble
import Polyglot.Language.Catalogue
import Polyglot.Pattern.Lower
import Polyglot.Synthesis.Graph

/-!
# The graph of the languages

Every language is a cycle of four kinds: its sources, which go by the name of the
language, the raw trees, the shaken trees, and the formatted sources, which are
sources again. Three more edges lead out of the cycles, from the shaken trees of
B to sources in the assembly language, from the shaken trees of that to programs,
and from those of patterns to regular expressions.
-/

namespace Polyglot

namespace Language

/-- The kind of the raw trees of a language. -/
def rawKind (name : String) : String := name ++ "-raw-ast"

/-- The kind of the shaken trees of a language. -/
def treeKind (name : String) : String := name ++ "-ast"

/-- The kind of the formatted sources of a language. -/
def formattedKind (name : String) : String := name ++ "-formatted"

end Language

/-- The kind of the programs of the machine. -/
def programKind : String := "mp0"

namespace Edge

/-- The edge that does something with texts. -/
def ofText (source target : String) (f : String → Except TransformError Artifact) : Edge :=
  ⟨source, target, fun a => do f (← a.asText.mapError .shape)⟩

/-- The edge that does something with trees. -/
def ofTree (source target : String) (f : Tree → Except TransformError Artifact) : Edge :=
  ⟨source, target, fun a => do f (← a.asTree.mapError .shape)⟩

end Edge

/-- The cycle of a language. -/
def Language.cycle (l : Language) : List Edge :=
  [.ofText l.name (rawKind l.name) fun source =>
     ((l.parse source).map .tree).mapError (.language ∘ .read),
   .ofTree (rawKind l.name) (treeKind l.name) fun t => .ok (.tree (l.shake t)),
   .ofTree (treeKind l.name) (formattedKind l.name) fun t => .ok (.text (l.print t)),
   ⟨formattedKind l.name, l.name, .ok⟩]

/-- The edges that lead out of the cycles. -/
def Graph.bridges : List Edge :=
  [.ofTree (Language.treeKind "b") "a" fun t =>
     ((B.compile t).map (.text ·.source)).mapError (.language ∘ .compile),
   .ofTree (Language.treeKind "a") programKind fun t =>
     ((Assembly.assemble t).map .program).mapError (.language ∘ .assembly),
   .ofTree (Language.treeKind "regex") "regex-pattern" fun t =>
     .ok (.text (Pattern.lower t))]

/-- The graph of the languages. -/
def Graph.ofLanguages : Graph :=
  ⟨Language.all.flatMap Language.cycle ++ bridges⟩

/-- Makes an artifact out of a source, in the language with a name or in the first
one that reads it. -/
def Graph.synthesizeSource (g : Graph) (target source : String) (language : Option String)
    (via : List String) : Except SynthesisError Artifact := do
  let l ← match language with
    | some name => match Language.ofName? name with
      | some l => pure l
      | none => throw (.unknownLanguage name)
    | none => match Language.guess? source with
      | some l => pure l
      | none => throw .unreadable
  (g.synthesize target (.text source) l.name via).mapError (.failed target l.name)

end Polyglot
