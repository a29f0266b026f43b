import Polyglot.Assembly.Listing
import Polyglot.B.Syntax
import Polyglot.Machine.Syscall
import Polyglot.Source.Diagnostic

/-!
# Compiling B

A program of B is compiled to a listing of the assembly language. Everything lives
on the stack. The frame of a function has a slot for the return address, one for
every parameter and every other name that is assigned, and then temporaries:

```
sp + 0       the return address
sp + 4 k     the k-th name
…            temporaries
```

A value is a slot, a literal or the address of a text, and no code is needed for
the last two until the value is used. An operator loads its operands into `t1` and
`t2`, leaves the result in `t0` and puts it into the next temporary. What is known
at compile time is computed there, unless it needs more than sixteen bits.

Temporaries live no longer than a statement, so every statement starts with the
first of them, and the frame has as many as the most demanding statement needs.

Code is returned and put together with `++`, so the code of every part is a
stretch of the code of the whole. The only state is the supply of labels and
temporaries.
-/

namespace Polyglot.B

open Polyglot.Source
open Polyglot.Assembly (Line Listing Operand)
open Polyglot.Machine (Register Syscall fits)

/-! ## Errors -/

/-- How many parameters a function may have: as many as there are registers for
them. -/
def maxParameters : Nat := 6

/-- How many bits a literal may have: as many as an instruction takes. -/
def literalBits : Nat := 16

/-- Why a program cannot be compiled. -/
inductive CompileError where
  /-- A variable is never assigned in the function. -/
  | undefinedVariable (name : String) (span : Span)
  /-- There is no function with this name. -/
  | unknownFunction (name : String) (span : Span)
  /-- There is another function with this name, or a call to the host. -/
  | duplicateFunction (name : String) (span : Span)
  /-- A call has the wrong number of arguments. -/
  | arityMismatch (name : String) (expected found : Nat) (span : Span)
  /-- A function has too many parameters. -/
  | tooManyParameters (name : String) (count : Nat) (span : Span)
  /-- A literal number is too large. -/
  | literalOutOfRange (value : Int) (span : Span)
  /-- A division, or a remainder, by something that is known to be zero. -/
  | divisionByZero (span : Span)
  /-- There is no function to start with. -/
  | missingMain
  /-- The tree is no program. -/
  | malformed (defect : Defect) (span : Span)
  deriving DecidableEq, Repr

namespace CompileError

/-- The stretch of source the error is about, if it is about one. -/
def span? : CompileError → Option Span
  | undefinedVariable _ span => some span
  | unknownFunction _ span => some span
  | duplicateFunction _ span => some span
  | arityMismatch _ _ _ span => some span
  | tooManyParameters _ _ span => some span
  | literalOutOfRange _ span => some span
  | divisionByZero span => some span
  | missingMain => none
  | malformed _ span => some span

/-- The wording of the error. -/
def message : CompileError → String
  | undefinedVariable name span => s!"{span}: variable {name} is used before being assigned"
  | unknownFunction name span => s!"{span}: unknown function {name}"
  | duplicateFunction name span => s!"{span}: function {name} is defined more than once"
  | arityMismatch name expected found span =>
    s!"{span}: {name} takes {expected} arguments, {found} given"
  | tooManyParameters name count span =>
    s!"{span}: {name} has {count} parameters, at most {maxParameters} are supported"
  | literalOutOfRange value span =>
    s!"{span}: the literal {value} does not fit in {literalBits} signed bits"
  | divisionByZero span => s!"{span}: division by zero"
  | missingMain => "the program has no main function"
  | malformed defect span => s!"{span}: malformed tree: {defect.message}"

/-- The error as a diagnostic. -/
def toDiagnostic (e : CompileError) : Diagnostic :=
  { Diagnostic.error e.message with span := e.span? }

end CompileError

/-! ## Lines of code -/

instance : Coe Register Operand := ⟨.register⟩

/-- An instruction that comes from no source. -/
def line (mnemonic : String) (operands : List Operand) : Line :=
  .instruction mnemonic operands .start

/-- A label that comes from no source. -/
def place (name : String) : Line := .label name .start

/-- The label with a number. -/
def numbered (n : Nat) : String := s!"L{n}"

/-- The label of a function. -/
def functionLabel (name : String) : String := "fn_" ++ name

/-- Where the value of an expression is. -/
inductive Value where
  /-- In the slot with a number. -/
  | slot (n : Nat)
  /-- It is known. -/
  | int (value : Int32)
  /-- It is the address of a text, by its number. -/
  | constant (index : Nat)
  deriving DecidableEq, Repr

/-- Puts a value into a register. -/
def Value.load (register : Register) : Value → Line
  | .slot n => line "load" [register, Register.sp, .int (4 * n)]
  | .int value => line "setv" [register, .int value.toInt]
  | .constant index => line "setv" [register, .constant index]

/-- Puts a register into a slot. -/
def saveTo (n : Nat) (register : Register) : Line :=
  line "store" [register, Register.sp, .int (4 * n)]

/-- The mnemonic of the instruction for an operator. -/
def Operator.mnemonic : Operator → String
  | .add => "add"
  | .sub => "sub"
  | .mul => "mul"
  | .div => "div"
  | .mod => "mod"
  | .or => "or"
  | .and => "and"
  | .eq => "eq"
  | .ne => "neq"
  | .gt => "gt"
  | .ge => "geq"
  | .lt => "lt"
  | .le => "leq"

/-- The lines that leave the result of an operator in `t0`. -/
def Operator.lines (op : Operator) (left right : Value) : List Line :=
  match right with
  | .int value =>
    [left.load .t1, line (op.mnemonic ++ "v") [Register.t0, Register.t1, .int value.toInt]]
  | _ =>
    [left.load .t1, right.load .t2, line op.mnemonic [Register.t0, Register.t1, Register.t2]]

/-- The value of an operator, if it is known and an instruction takes it. -/
def Operator.fold? (op : Operator) (left right : Value) : Option Value :=
  match left, right with
  | .int a, .int b => do
    let value ← op.compute? a b
    if fits value.toInt literalBits then some (.int value) else none
  | _, _ => none

/-- The lines that go to a label if a value is zero. -/
def jumpUnless (condition : Value) (target : String) : List Line :=
  [condition.load .t0, line "eqv" [Register.t0, Register.t0, .int 0],
   line "jumpifv" [.label target, Register.t0]]

/-! ## The state of the compiler -/

/-- What names mean inside a function. -/
structure Scope where
  /-- The texts of the program, without repetitions. -/
  constants : List String
  /-- The numbers of parameters of the functions. -/
  arities : List (String × Nat)
  /-- The names that have a slot, in the order of the slots. -/
  names : List String
  /-- The label of the end of the function. -/
  ending : String

/-- What is still to be had. -/
structure Supply where
  /-- The number of the next label. -/
  labels : Nat := 0
  /-- How many temporaries the statement uses. -/
  temporaries : Nat := 0
  /-- How many temporaries the most demanding statement of the function used. -/
  peak : Nat := 0
  deriving DecidableEq, Repr

/-- A step of the compiler. -/
abbrev Emit := StateT Supply (Except CompileError)

/-- The next label. -/
def freshLabel : Emit String := do
  let supply ← get
  set { supply with labels := supply.labels + 1 }
  return numbered supply.labels

/-- Starts a new statement. -/
def releaseTemporaries : Emit Unit :=
  modify fun supply => { supply with temporaries := 0 }

namespace Scope

/-- The slot of a name. Slot zero is taken. -/
def slot (s : Scope) (name : String) : Nat := s.names.idxOf name + 1

/-- Lines that leave a result in a register, and then put it into the next
temporary. -/
def keep (s : Scope) (code : List Line) (register : Register) : Emit (List Line × Value) := do
  let supply ← get
  let used := supply.temporaries + 1
  set { supply with temporaries := used, peak := max supply.peak used }
  let n := s.names.length + used
  return (code ++ [saveTo n register], .slot n)

/-- How many arguments a call takes. -/
def arity (s : Scope) (callee : String) (span : Span) : Except CompileError Nat :=
  match Syscall.ofName? callee, s.arities.lookup callee with
  | some _, _ => .ok 1
  | none, some n => .ok n
  | none, none => .error (.unknownFunction callee span)

/-- The lines of a call, the arguments of which have been computed, with the
label of what comes after it. -/
def callLines (callee back : String) (values : List Value) : List Line :=
  List.zipWith Value.load Register.arguments values
    ++ [line "setv" [Register.ra, .label back], line "jumpv" [.label (functionLabel callee)],
        place back]

/-- The lines of a call to the host. -/
def hostLines (call : Syscall) (values : List Value) : List Line :=
  List.zipWith Value.load [Register.a1] values ++ [line "sysv" [.int call.number]]

end Scope

/-! ## Expressions -/

mutual

/-- The code of an expression, and where its value is afterwards. -/
def Expression.compile (s : Scope) : Expression → Emit (List Line × Value)
  | .integer value span =>
    if fits value literalBits then return ([], .int (Int32.ofInt value))
    else throw (.literalOutOfRange value span)
  | .text text => return ([], .constant (s.constants.idxOf text))
  | .variable name span =>
    if s.names.contains name then return ([], .slot (s.slot name))
    else throw (.undefinedVariable name span)
  | .negate operand => do
    let (code, value) ← operand.compile s
    match value with
    | .int k => return (code, .int (-k))
    | value =>
      s.keep (code ++ [value.load .t1,
        line "sub" [Register.t0, Register.zero, Register.t1]]) .t0
  | .isZero operand => do
    let (code, value) ← operand.compile s
    match value with
    | .int k => return (code, .int (truth (k == 0)))
    | value => s.keep (code ++ [value.load .t1, line "not" [Register.t0, Register.t1]]) .t0
  | .binary op left right signSpan => do
    let (leftCode, a) ← left.compile s
    let (rightCode, b) ← right.compile s
    if op.divides && b == .int 0 then throw (.divisionByZero signSpan)
    match op.fold? a b with
    | some value => return (leftCode ++ rightCode, value)
    | none => s.keep (leftCode ++ rightCode ++ op.lines a b) .t0
  | .call callee arguments span => do
    let expected ← s.arity callee span
    if arguments.length ≠ expected then
      throw (.arityMismatch callee expected arguments.length span)
    let (code, values) ← compileAll s arguments
    match Syscall.ofName? callee with
    | some call => s.keep (code ++ Scope.hostLines call values) .a0
    | none =>
      let back ← freshLabel
      s.keep (code ++ Scope.callLines callee back values) .a0
  | .load base offset addressSpan => do
    if !fits offset literalBits then throw (.literalOutOfRange offset addressSpan)
    let (code, value) ← base.compile s
    s.keep (code ++ [value.load .t1, line "load" [Register.t0, Register.t1, .int offset]]) .t0
  | .broken before defect span => do
    let _ ← compileAll s before
    throw (.malformed defect span)

/-- The code of a list of expressions, and where their values are afterwards. -/
def compileAll (s : Scope) : List Expression → Emit (List Line × List Value)
  | [] => return ([], [])
  | e :: es => do
    let (code, value) ← e.compile s
    let (rest, values) ← compileAll s es
    return (code ++ rest, value :: values)

end

/-- A text has no code: it stands among the constants. -/
theorem Expression.compile_text (s : Scope) (text : String) :
    Expression.compile s (.text text) = return ([], .constant (s.constants.idxOf text)) := by
  rw [Expression.compile]

/-! ## Statements -/

mutual

/-- The code of a statement. -/
def Statement.compile (s : Scope) : Statement → Emit (List Line)
  | .block body => do
    releaseTemporaries
    compileBlock s body
  | .whileLoop condition body => do
    releaseTemporaries
    let start ← freshLabel
    let ending ← freshLabel
    let (test, value) ← condition.compile s
    let code ← body.compile s
    return [place start] ++ test ++ jumpUnless value ending ++ code
      ++ [line "jumpv" [.label start], place ending]
  | .ifThen condition positive => do
    releaseTemporaries
    let otherwise ← freshLabel
    let (test, value) ← condition.compile s
    let code ← positive.compile s
    return test ++ jumpUnless value otherwise ++ code ++ [place otherwise]
  | .ifElse condition positive negative => do
    releaseTemporaries
    let otherwise ← freshLabel
    let (test, value) ← condition.compile s
    let first ← positive.compile s
    let ending ← freshLabel
    let second ← negative.compile s
    return test ++ jumpUnless value otherwise ++ first
      ++ [line "jumpv" [.label ending], place otherwise] ++ second ++ [place ending]
  | .ret none => do
    releaseTemporaries
    return [Value.load .a0 (.int 0), line "jumpv" [.label s.ending]]
  | .ret (some e) => do
    releaseTemporaries
    let (code, value) ← e.compile s
    return code ++ [value.load .a0, line "jumpv" [.label s.ending]]
  | .assign target e => do
    releaseTemporaries
    let (code, value) ← e.compile s
    return code ++ [value.load .t0, saveTo (s.slot target) .t0]
  | .store base offset addressSpan e => do
    releaseTemporaries
    if !fits offset literalBits then throw (.literalOutOfRange offset addressSpan)
    let (baseCode, address) ← base.compile s
    let (code, value) ← e.compile s
    return baseCode ++ code ++ [address.load .t0, value.load .t1,
      line "store" [Register.t1, Register.t0, .int offset]]
  | .call e => do
    releaseTemporaries
    let (code, _) ← e.compile s
    return code
  | .skip => do
    releaseTemporaries
    return []
  | .broken before defect span => do
    releaseTemporaries
    let _ ← compileAll s before
    throw (.malformed defect span)

/-- The code of statements one after the other. -/
def compileBlock (s : Scope) : List Statement → Emit (List Line)
  | [] => return []
  | b :: bs => do
    let code ← b.compile s
    return code ++ (← compileBlock s bs)

end

/-- An empty statement has no code, but ends the use of the temporaries like any other. -/
theorem Statement.compile_empty (s : Scope) :
    Statement.compile s .skip = do releaseTemporaries; return [] := by
  rw [Statement.compile]

/-! ## Functions and programs -/

/-- The names of a function that have a slot: the parameters, and then what is
assigned, in the order of the first time. -/
def Function.names (f : Function) : List String :=
  (f.parameters ++ f.assigned).eraseDups

/-- The code of a function. -/
def Function.compile (constants : List String) (arities : List (String × Nat))
    (f : Function) : Emit (List Line) := do
  match f.body with
  | none => throw (.malformed (.noBody f.name) f.span)
  | some body =>
    let ending ← freshLabel
    let s : Scope := { constants, arities, names := f.names, ending }
    modify fun supply => { supply with temporaries := 0, peak := 0 }
    let code ← body.compile s
    let frame := 4 * (1 + f.names.length + (← get).peak)
    return [place (functionLabel f.name),
        line "addv" [Register.sp, Register.sp, .int (-frame)],
        saveTo 0 .ra]
      ++ List.zipWith (fun r name => saveTo (s.slot name) r) Register.arguments f.parameters
      ++ code
      ++ [Value.load .a0 (.int 0),
        place ending,
        Value.load .ra (.slot 0),
        line "addv" [Register.sp, Register.sp, .int frame],
        line "jump" [Register.ra]]

/-- The code of functions one after the other. -/
def compileFunctions (constants : List String) (arities : List (String × Nat)) :
    List Function → Emit (List Line)
  | [] => return []
  | f :: fs => do
    let code ← f.compile constants arities
    return code ++ (← compileFunctions constants arities fs)

/-- The numbers of parameters of functions, given those of the functions before
them. -/
def aritiesFrom (known : List (String × Nat)) :
    List Function → Except CompileError (List (String × Nat))
  | [] => .ok known
  | f :: fs =>
    let count := f.parameters.length
    if count > maxParameters then .error (.tooManyParameters f.name count f.span)
    else if (Syscall.ofName? f.name).isSome || (known.lookup f.name).isSome then
      .error (.duplicateFunction f.name f.span)
    else aritiesFrom (known ++ [(f.name, count)]) fs

/-- The texts of a program without repetitions, in the order of the first time. -/
def Program.constants (p : Program) : Except CompileError (List String) :=
  (p.texts.mapM id).map List.eraseDups |>.mapError (.malformed .invalidText)

/-- The lines that call the first function and end with what it gives. -/
def startLines (back : String) : List Line :=
  [line "setv" [Register.ra, .label back], line "jumpv" [.label (functionLabel "main")],
   place back, line "exit" [Register.a0]]

/-- The listing of a program. -/
def Program.compile (p : Program) : Except CompileError Listing := do
  let constants ← p.constants
  let arities ← aritiesFrom [] p.functions
  if (arities.lookup "main").isNone then throw .missingMain
  let emit : Emit (List Line) := do
    let back ← freshLabel
    let code ← compileFunctions constants arities p.functions
    return startLines back ++ code ++ [line "exitv" [.int 0]]
  return { constants, lines := ← emit.run' {} }

/-- The listing of a shaken tree. -/
def compile (t : Tree) : Except CompileError Listing :=
  (Program.ofTree t).compile

end Polyglot.B
