import Polyglot.Grammar.Xbnf
import Polyglot.Tree.Layout

/-!
# Languages

A language is a grammar, a way to shake its trees and a way to print them. From
these comes everything that is the same for all languages: reading a source into
a raw tree, shaking it into the canonical one, and formatting, which is reading,
shaking and printing.
-/

namespace Polyglot

/-- A language. -/
structure Language where
  /-- The name of the language. -/
  name : String
  /-- The extensions of the files with sources in it, without the point. -/
  extensions : List String
  /-- The grammar, or why there is none. -/
  grammar? : Except ReadError Grammar
  /-- What to shake out of raw trees. -/
  shaker : Shake := {}
  /-- How trees are printed. -/
  print : Tree → String := ({} : Layout).print

namespace Language

/-- The raw tree of a source. -/
def parse (l : Language) (source : String) : Except ReadError Tree := do
  (← l.grammar?).parse source

/-- The canonical form of a raw tree. -/
def shake (l : Language) (raw : Tree) : Tree :=
  l.shaker.shake raw

/-- The canonical tree of a source. -/
def parseShaken (l : Language) (source : String) : Except ReadError Tree :=
  (l.parse source).map l.shake

/-- The source in its canonical layout. -/
def format (l : Language) (source : String) : Except ReadError String :=
  (l.parseShaken source).map l.print

end Language

/-- Lines of text, each ended by a line feed. -/
def unlines (lines : List String) : String :=
  String.join (lines.map (·.push '\n'))

end Polyglot
