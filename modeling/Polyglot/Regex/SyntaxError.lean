import Polyglot.Regex.Weight

/-!
# Texts that are no regular expressions

The ways in which a text can fail to be the written form of a regular
expression, and the two limits that a well-formed one has to keep.
-/

namespace Polyglot.Regex

/-- Why a text is no regular expression. -/
inductive SyntaxError where
  /-- A group is not closed. -/
  | unclosedGroup
  /-- A group is closed that was not opened. -/
  | unopenedGroup
  /-- A group with a mark that is not known. -/
  | unknownGroup
  /-- A repetition sign has nothing before it. -/
  | nothingToRepeat
  /-- The count of a repetition is not written properly. -/
  | malformedCount
  /-- The count of a repetition has its bounds in the wrong order. -/
  | reversedCount
  /-- A class is not closed. -/
  | unclosedClass
  /-- A range of characters is in the wrong order, or its ends are no characters. -/
  | invalidRange
  /-- The text ends in a backslash, or what comes after one has no meaning there. -/
  | unknownEscape
  /-- The text is nested too deeply. -/
  | tooDeep
  /-- The expression is too heavy. -/
  | tooHeavy
  deriving DecidableEq, Repr

/-- How deeply a written expression may be nested. -/
def depthLimit : Nat := 250

/-- The wording of a syntax error. -/
def SyntaxError.message : SyntaxError → String
  | .unclosedGroup => "unclosed group"
  | .unopenedGroup => "unopened group"
  | .unknownGroup => "unrecognized flag"
  | .nothingToRepeat => "repetition operator missing expression"
  | .malformedCount => "malformed repetition quantifier"
  | .reversedCount =>
    "invalid repetition count range, the start must be <= the end"
  | .unclosedClass => "unclosed character class"
  | .invalidRange => "invalid character class range, the start must be <= the end"
  | .unknownEscape => "unrecognized escape sequence"
  | .tooDeep => s!"exceeded the maximum number of nested parentheses and brackets ({depthLimit})"
  | .tooHeavy => s!"exceeded the size limit of {weightLimit} bytes"

end Polyglot.Regex
