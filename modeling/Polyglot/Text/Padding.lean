/-!
# Padding

Spaces in front of a text, for the columns of a listing and the labels of a
diagnostic. Widths are counted in characters.
-/

namespace Polyglot.Text

/-- A run of `n` spaces. -/
def spaces (n : Nat) : String :=
  String.ofList (List.replicate n ' ')

/-- The text pushed to the right by spaces until it has `width` characters. -/
def padLeft (width : Nat) (text : String) : String :=
  spaces (width - text.length) ++ text

end Polyglot.Text
