import Polyglot.Assembly.Listing
import Polyglot.B.Compile
import Polyglot.Expr.Evaluate

/-!
# Errors of the languages

What can go wrong with a source, whichever language it is in and whatever is done
with it: reading, assembling, compiling or evaluating it, or not knowing its
language in the first place.
-/

namespace Polyglot

open Polyglot.Source

/-- Why something cannot be done with a source. -/
inductive LanguageError where
  /-- It cannot be read. -/
  | read (e : ReadError)
  /-- It cannot be assembled. -/
  | assembly (e : Assembly.AssemblyError)
  /-- It cannot be compiled. -/
  | compile (e : B.CompileError)
  /-- It has no value. -/
  | eval (e : Expr.EvalError)
  /-- There is no language with this name. -/
  | unknownLanguage (name : String)

namespace LanguageError

/-- The wording of the error. -/
def message : LanguageError → String
  | read e => e.message
  | assembly e => e.message
  | compile e => e.message
  | eval e => e.message
  | unknownLanguage name => s!"unknown language {name}"

/-- The error and what caused it, as separate messages. -/
def chain : LanguageError → List String
  | assembly e => e.chain
  | e => [e.message]

/-- The error as a diagnostic. -/
def toDiagnostic : LanguageError → Diagnostic
  | read e => e.toDiagnostic
  | assembly e => e.toDiagnostic
  | compile e => e.toDiagnostic
  | eval e => e.toDiagnostic
  | e => .error e.message

end LanguageError

end Polyglot
