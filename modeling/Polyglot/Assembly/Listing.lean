import Polyglot.Assembly.Language
import Polyglot.Machine.Instruction

/-!
# Listings

A listing is the content of a source in the assembly language: the texts of its
data section, in order, and the lines of its code section. Every line knows the
stretch of source it comes from.

A name among the operands of an instruction is a register if it is the name of
one, and else a label. There is no other way to tell them apart, so no label can
have the name of a register.
-/

namespace Polyglot.Assembly

open Polyglot.Source
open Polyglot.Machine (Register InstructionError)

/-- An operand of an instruction. -/
inductive Operand where
  /-- A register. -/
  | register (r : Register)
  /-- A label. -/
  | label (name : String)
  /-- A number. -/
  | int (value : Int)
  /-- A text of the data section, by its number. -/
  | constant (index : Nat)
  deriving DecidableEq, Repr

namespace Operand

/-- The operand that a name stands for. -/
def ofName (name : String) : Operand :=
  match Register.ofName? name with
  | some r => register r
  | none => label name

/-- The operand as it is written. -/
def text : Operand → String
  | register r => r.name
  | label name => name
  | int value => toString value
  | constant index => s!"={index}"

end Operand

/-- A line of the code section. -/
inductive Line where
  /-- A label for the instruction that comes next. -/
  | label (name : String) (span : Span)
  /-- An instruction. -/
  | instruction (mnemonic : String) (operands : List Operand) (span : Span)
  deriving DecidableEq, Repr

namespace Line

/-- The stretch of source the line comes from. -/
def span : Line → Span
  | label _ span => span
  | instruction _ _ span => span

/-- The instruction as it is written. -/
def instructionText (mnemonic : String) (operands : List Operand) : String :=
  mnemonic ++ " " ++ " ".intercalate (operands.map Operand.text)

/-- The line as it is written. -/
def text : Line → String
  | label name _ => name ++ ":"
  | instruction mnemonic operands _ => instructionText mnemonic operands

/-- The line as it stands in a source, indented if it is an instruction. -/
def indented : Line → String
  | label name span => (label name span).text
  | instruction mnemonic operands span => "    " ++ (instruction mnemonic operands span).text

end Line

/-- The content of a source. -/
structure Listing where
  /-- The texts of the data section. -/
  constants : List String
  /-- The lines of the code section. -/
  lines : List Line
  deriving DecidableEq, Repr

/-- The listing as a source. -/
def Listing.source (l : Listing) : String :=
  unlines <| [".data"] ++ l.constants.map (fun c => "    " ++ Text.quote c)
    ++ [".code"] ++ l.lines.map Line.indented

/-- What is wrong with a tree that is no listing. -/
inductive Defect where
  /-- An operand has nothing in it. -/
  | emptyOperand
  /-- A number has no value. -/
  | missingInteger
  /-- An operand is of no known kind. -/
  | unknownOperand
  /-- A text of the data section has no value. -/
  | invalidConstant
  /-- An instruction does not have the operands it needs. -/
  | instruction (text : String)
  deriving DecidableEq, Repr

/-- The wording of a defect. -/
def Defect.message : Defect → String
  | .emptyOperand => "empty operand"
  | .missingInteger => "missing integer"
  | .unknownOperand => "unknown operand"
  | .invalidConstant => "invalid string constant"
  | .instruction text => text

/-- What an operand of an instruction may be. -/
inductive Kind where
  /-- A register. -/
  | register
  /-- A number. -/
  | immediate
  /-- A place to go to: a label, or a number of bytes from here. -/
  | target
  /-- A value: a number, or the address of a text or of a label. -/
  | value
  deriving DecidableEq, Repr

/-- What a kind of operand is called. -/
def Kind.description : Kind → String
  | .register => "a register"
  | .immediate => "an integer"
  | .target => "a label or an offset"
  | .value => "an integer, a constant or a label"

/-- Why there is no program to a source. -/
inductive AssemblyError where
  /-- There is no instruction of this name. -/
  | unknownInstruction (mnemonic : String) (span : Span)
  /-- An instruction has the wrong number of operands. -/
  | wrongArity (mnemonic : String) (expected found : Nat) (span : Span)
  /-- An operand, counted from one, is of the wrong kind. -/
  | invalidOperand (mnemonic : String) (position : Nat) (expected : Kind) (found : Operand)
      (span : Span)
  /-- A label is defined twice. -/
  | duplicateLabel (label : String) (span : Span)
  /-- A label is not defined. -/
  | undefinedLabel (label : String) (span : Span)
  /-- There is no text with this number. -/
  | undefinedConstant (index : Nat) (span : Span)
  /-- The tree is no listing. -/
  | malformed (defect : Defect) (span : Span)
  /-- An instruction of the machine, by its number, has no word. -/
  | encoding (index : Nat) (span : Span) (source : InstructionError)
  deriving DecidableEq, Repr

namespace AssemblyError

/-- The stretch of source the error is about. -/
def span : AssemblyError → Span
  | unknownInstruction _ span => span
  | wrongArity _ _ _ span => span
  | invalidOperand _ _ _ _ span => span
  | duplicateLabel _ span => span
  | undefinedLabel _ span => span
  | undefinedConstant _ span => span
  | malformed _ span => span
  | encoding _ span _ => span

/-- The wording of the error. -/
def message : AssemblyError → String
  | unknownInstruction mnemonic span => s!"{span}: unknown instruction {mnemonic}"
  | wrongArity mnemonic expected found span =>
    s!"{span}: {mnemonic} takes {expected} operands, {found} given"
  | invalidOperand mnemonic position expected found span =>
    s!"{span}: operand {position} of {mnemonic} must be {expected.description}, "
      ++ s!"found {found.text}"
  | duplicateLabel label span => s!"{span}: label {label} is defined more than once"
  | undefinedLabel label span => s!"{span}: undefined label {label}"
  | undefinedConstant index span => s!"{span}: there is no string constant ={index}"
  | malformed defect span => s!"{span}: malformed instruction: {defect.message}"
  | encoding index span source =>
    s!"{span}: cannot encode instruction {index}: {source.message}"

/-- The error and what caused it, as separate messages. -/
def chain : AssemblyError → List String
  | encoding index span source => [(encoding index span source).message, source.message]
  | e => [e.message]

/-- The error as a diagnostic. -/
def toDiagnostic (e : AssemblyError) : Diagnostic :=
  { Diagnostic.error e.message with span := some e.span }

end AssemblyError

/-! ## Reading listings from trees -/

/-- The value of the first token of a tree that has one. -/
def integerOf (t : Tree) : Except AssemblyError Int :=
  match t.tokens.findSome? Token.int? with
  | some value => .ok value
  | none => .error (.malformed .missingInteger t.span)

/-- Whether a tree is the minus sign. -/
def isMinus (t : Tree) : Bool := t.token?.any (·.lexeme == "-")

/-- Whether a tree starts with a minus sign, which in a raw tree is one level
further down. -/
def isNegative (t : Tree) : Bool :=
  match t.children.head? with
  | some c => isMinus c || c.children.head?.any isMinus
  | none => false

/-- The operand of a tree. -/
def operandOf (t : Tree) : Except AssemblyError Operand :=
  match t.children.head? with
  | none => .error (.malformed .emptyOperand t.span)
  | some inner =>
    if inner.name == "name" then .ok (.ofName inner.text)
    else if inner.name == "integer" then do
      let value ← integerOf inner
      return .int (if isNegative inner then (-value).bmod (Text.bitRange 64) else value)
    else if inner.name == "constant_ref" then do
      -- the number counts the texts from zero, as a 64-bit word
      return .constant ((← integerOf inner) % Text.bitRange 64).toNat
    else .error (.malformed .unknownOperand t.span)

/-- The line of the tree of an instruction. -/
def instructionOf (t : Tree) : Except AssemblyError Line := do
  let operands ← (t.children.filter (·.name == "operand")).mapM operandOf
  let mnemonic := ((t.labeled? "op").map Tree.text).getD ""
  return .instruction mnemonic operands t.span

/-- What a part of a source puts into a listing. -/
inductive Item where
  /-- A text of the data section. -/
  | constant (text : String)
  /-- A line of the code section. -/
  | line (l : Line)
  deriving DecidableEq, Repr

/-- The item of a tree that stands for one. -/
def itemOf? (t : Tree) : Option (Except AssemblyError Item) :=
  if t.name == "constant" then
    some <| match t.token?.bind Token.str? with
      | some text => .ok (.constant text)
      | none => .error (.malformed .invalidConstant t.span)
  else if t.name == "label" then
    let name := (t.tokens.head?.map (·.lexeme)).getD ""
    some (.ok (.line (.label name t.span)))
  else if t.name == "instruction" then some ((instructionOf t).map .line)
  else none

mutual

/-- The items of a tree, from left to right. -/
def collect : Tree → Except AssemblyError (List Item)
  | .leaf name label terminal token =>
    match itemOf? (.leaf name label terminal token) with
    | some item => item.map ([·])
    | none => .ok []
  | .node name label choice children =>
    match itemOf? (.node name label choice children) with
    | some item => item.map ([·])
    | none => collectList children

/-- The items of a list of trees, from left to right. -/
def collectList : List Tree → Except AssemblyError (List Item)
  | [] => .ok []
  | t :: ts => do
    let first ← collect t
    return first ++ (← collectList ts)

end

/-- The listing of a tree, raw or shaken. -/
def Listing.ofTree (t : Tree) : Except AssemblyError Listing := do
  let items ← collect t
  return {
    constants := items.filterMap fun
      | .constant text => some text
      | .line _ => none
    lines := items.filterMap fun
      | .constant _ => none
      | .line l => some l }

end Polyglot.Assembly
