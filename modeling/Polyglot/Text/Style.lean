/-!
# Terminal styles

Styled text is text between two terminal control sequences. Whether the output
goes to a terminal is the caller's knowledge: everything that can be styled is
printed by a function of a `Palette`, and without colours a style does nothing.

Padding is part of what is styled: a label that is pushed to the right is
padded first and styled afterwards, so that the spaces in front of it stand
inside the control sequences.
-/

namespace Polyglot.Text

/-- Whether styled text is written with terminal control sequences. -/
inductive Palette where
  /-- Styles are ignored. -/
  | plain
  /-- Styles are written as terminal control sequences. -/
  | ansi
  deriving DecidableEq, Repr

/-- The styles in use. All of them are bold. -/
inductive Style where
  /-- Bold, in the colour of the surrounding text. -/
  | bold
  /-- Bold red. -/
  | red
  /-- Bold bright red. -/
  | brightRed
  /-- Bold bright yellow. -/
  | brightYellow
  deriving DecidableEq, Repr

/-- The parameters of the control sequence that turns a style on. -/
def Style.parameters : Style → String
  | .bold => "1"
  | .red => "1;31"
  | .brightRed => "1;91"
  | .brightYellow => "1;93"

/-- The text in a style. -/
def Palette.apply (palette : Palette) (style : Style) (text : String) : String :=
  match palette with
  | .plain => text
  | .ansi => "\x1b[" ++ style.parameters ++ "m" ++ text ++ "\x1b[0m"

/-- Without colours a style does nothing. -/
@[simp] theorem Palette.apply_plain (style : Style) (text : String) :
    Palette.plain.apply style text = text := rfl

end Polyglot.Text
