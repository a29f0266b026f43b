import Polyglot.Assembly.Language
import Polyglot.B.Language
import Polyglot.Expr.Language
import Polyglot.Language.Xbnf
import Polyglot.Pattern.Language

/-!
# The catalogue of languages

All languages, in the order in which they are tried on a source of which nothing
is known. A language can be found by its name, by the extension of a file, or by
that trial, in which the first language that reads the source is taken.
-/

namespace Polyglot

/-- The extension of the file that a path leads to: what comes after the last
point of its name, unless the name starts with that point. Slashes at the end of
the path, and steps that stay where they are, do not count. -/
def extension? (path : String) : Option String :=
  let parts := (path.toList.splitOn '/').filter fun part => !part.isEmpty && part != ['.']
  match parts.getLast? with
  | none => none
  | some name =>
    let after := (name.reverse.takeWhile (· != '.')).reverse
    if name == ['.', '.'] || name.length ≤ after.length + 1 then none
    else some (String.ofList after)

namespace Language

/-- All languages, in the order they are tried in. -/
def all : List Language :=
  [B.language, Assembly.language, Expr.language, Pattern.language, Xbnf.language]

/-- The language with a name. -/
def ofName? (name : String) : Option Language :=
  all.find? (·.name == name)

/-- The language for a file, by its extension in capitals or small letters. -/
def ofPath? (path : String) : Option Language :=
  let extension := ((extension? path).getD "").map Char.toLower
  all.find? fun l => l.extensions.contains extension

/-- The first language that reads a source. -/
def guess? (source : String) : Option Language :=
  all.find? fun l => (l.parse source).toOption.isSome

end Language

end Polyglot
