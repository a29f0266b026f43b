import Polyglot.Assembly.Listing
import Polyglot.Machine.Program

/-!
# Commands

A command is an instruction of the assembly language whose operands were checked:
the constructors are the instructions, and their arguments have the kinds the
operands must have. What a mnemonic takes is a table of kinds, `signature?`, and
checking goes through it: first the mnemonic, then the number of operands, then
each operand in turn.

A command is lowered to one or two instructions of the machine. How many there
are is known without lowering it, which is what makes it possible to give every
label a place before the first instruction is lowered.
-/

namespace Polyglot.Assembly

open Polyglot.Source
open Polyglot.Machine (Register AluOp Instruction InstructionError)

/-- An arithmetic operation: one of the machine's, and whether its result is
turned from one to zero and from zero to one. -/
structure Operation where
  /-- The operation of the machine. -/
  op : AluOp
  /-- Whether the result is turned round. -/
  negated : Bool := false
  deriving DecidableEq, Repr

/-- The arithmetic operations by their mnemonics. -/
def operations : List (String × Operation) :=
  [("add", ⟨.add, false⟩), ("sub", ⟨.sub, false⟩), ("mul", ⟨.mul, false⟩),
   ("div", ⟨.div, false⟩), ("mod", ⟨.mod, false⟩), ("or", ⟨.or, false⟩),
   ("and", ⟨.and, false⟩), ("xor", ⟨.xor, false⟩), ("eq", ⟨.eq, false⟩),
   ("neq", ⟨.eq, true⟩), ("gt", ⟨.gt, false⟩), ("geq", ⟨.ge, false⟩),
   ("lt", ⟨.lt, false⟩), ("leq", ⟨.le, false⟩), ("ls", ⟨.ls, false⟩),
   ("rs", ⟨.rs, false⟩)]

/-- The arithmetic operation with a mnemonic. -/
def operation? (mnemonic : String) : Option Operation :=
  operations.lookup mnemonic

/-- The mnemonic without the letter at its end that says that the last operand is
a number. -/
def immediateForm? (mnemonic : String) : Option String :=
  let cs := mnemonic.toList
  if cs.getLast? = some 'v' then some (String.ofList cs.dropLast) else none

/-- The arithmetic operation of a mnemonic for a register and a number. -/
def immediateOperation? (mnemonic : String) : Option Operation :=
  (immediateForm? mnemonic).bind operation?

/-- Whether an operand is of a kind. -/
def Kind.accepts : Kind → Operand → Bool
  | .register, .register _ => true
  | .immediate, .int _ => true
  | .target, .label _ => true
  | .target, .int _ => true
  | .value, .int _ => true
  | .value, .constant _ => true
  | .value, .label _ => true
  | _, _ => false

/-- The kinds of the operands of the instructions that are not arithmetic. -/
def signatures : List (String × List Kind) :=
  [("jump", [.register]), ("sys", [.register]), ("exit", [.register]),
   ("jumpv", [.target]), ("sysv", [.immediate]), ("exitv", [.immediate]),
   ("not", [.register, .register]), ("set", [.register, .register]),
   ("jumpif", [.register, .register]), ("setv", [.register, .value]),
   ("jumpifv", [.target, .register]), ("load", [.register, .register, .immediate]),
   ("store", [.register, .register, .immediate]),
   ("storev", [.immediate, .register, .immediate])]

/-- The kinds of the operands of an instruction, if there is one of this name. -/
def signature? (mnemonic : String) : Option (List Kind) :=
  if (operation? mnemonic).isSome then some [.register, .register, .register]
  else if (immediateOperation? mnemonic).isSome then some [.register, .register, .immediate]
  else signatures.lookup mnemonic

/-- Checks operands, the first of which has the number `position`. -/
def checkKinds (mnemonic : String) (span : Span) :
    Nat → List Kind → List Operand → Except AssemblyError Unit
  | position, kind :: kinds, operand :: operands =>
    if kind.accepts operand then checkKinds mnemonic span (position + 1) kinds operands
    else .error (.invalidOperand mnemonic position kind operand span)
  | _, _, _ => .ok ()

/-- Checks that there is an instruction of a name and that it takes the operands. -/
def check (mnemonic : String) (operands : List Operand) (span : Span) :
    Except AssemblyError Unit :=
  match signature? mnemonic with
  | none => .error (.unknownInstruction mnemonic span)
  | some kinds =>
    if kinds.length ≠ operands.length then
      .error (.wrongArity mnemonic kinds.length operands.length span)
    else checkKinds mnemonic span 1 kinds operands

/-- A place to go to. -/
inductive Target where
  /-- A label. -/
  | label (name : String)
  /-- A number of bytes from here. -/
  | offset (bytes : Int)
  deriving DecidableEq, Repr

/-- A value to put into a register. -/
inductive Source where
  /-- A number. -/
  | int (value : Int)
  /-- The address of a label. -/
  | label (name : String)
  /-- The address of a text of the data section. -/
  | constant (index : Nat)
  deriving DecidableEq, Repr

/-- An instruction with operands of the right kinds. -/
inductive Command where
  /-- An arithmetic operation on two registers. -/
  | compute (o : Operation) (dst left right : Register)
  /-- An arithmetic operation on a register and a number. -/
  | computeWith (o : Operation) (dst left : Register) (right : Int)
  /-- Whether a register is zero. -/
  | isZero (dst src : Register)
  /-- A copy of a register. -/
  | copy (dst src : Register)
  /-- A value. -/
  | put (dst : Register) (source : Source)
  /-- A word from memory. -/
  | load (dst base : Register) (offset : Int)
  /-- A register to memory. -/
  | store (src base : Register) (offset : Int)
  /-- A number to memory, by way of the last temporary. -/
  | storeInt (value : Int) (base : Register) (offset : Int)
  /-- Go to the address in a register. -/
  | jump (address : Register)
  /-- Go to a place. -/
  | jumpTo (target : Target)
  /-- Go to the address in a register unless the other register is zero. -/
  | jumpIf (address condition : Register)
  /-- Go to a place unless a register is zero. -/
  | jumpToIf (target : Target) (condition : Register)
  /-- The call to the host with the number in a register. -/
  | sys (number : Register)
  /-- The call to the host with a number. -/
  | sysOf (number : Int)
  /-- The end of the program, with the exit code in a register. -/
  | exit (code : Register)
  /-- The end of the program, with an exit code. -/
  | exitWith (code : Int)
  deriving DecidableEq, Repr

namespace Command

/-- The place that an operand stands for. -/
def target? : Operand → Option Target
  | .label name => some (.label name)
  | .int bytes => some (.offset bytes)
  | _ => none

/-- The value that an operand stands for. -/
def source? : Operand → Option Source
  | .int value => some (.int value)
  | .label name => some (.label name)
  | .constant index => some (.constant index)
  | .register _ => none

/-- The command of an arithmetic mnemonic and its operands. -/
def ofArithmetic? (mnemonic : String) (operands : List Operand) : Option Command :=
  match operands with
  | [.register dst, .register left, .register right] =>
    (operation? mnemonic).map fun o => compute o dst left right
  | [.register dst, .register left, .int right] =>
    (immediateOperation? mnemonic).map fun o => computeWith o dst left right
  | _ => none

/-- The command of a mnemonic and its operands. -/
def of? (mnemonic : String) (operands : List Operand) : Option Command :=
  match mnemonic, operands with
  | "not", [.register dst, .register src] => some (isZero dst src)
  | "set", [.register dst, .register src] => some (copy dst src)
  | "setv", [.register dst, value] => (source? value).map (put dst)
  | "load", [.register dst, .register base, .int offset] => some (load dst base offset)
  | "store", [.register src, .register base, .int offset] => some (store src base offset)
  | "storev", [.int value, .register base, .int offset] => some (storeInt value base offset)
  | "jump", [.register address] => some (jump address)
  | "jumpv", [place] => (target? place).map jumpTo
  | "jumpif", [.register address, .register condition] => some (jumpIf address condition)
  | "jumpifv", [place, .register condition] => (target? place).map fun t => jumpToIf t condition
  | "sys", [.register number] => some (sys number)
  | "sysv", [.int number] => some (sysOf number)
  | "exit", [.register code] => some (exit code)
  | "exitv", [.int code] => some (exitWith code)
  | _, _ => ofArithmetic? mnemonic operands

/-- The command of a line, after all checks. -/
def ofLine (mnemonic : String) (operands : List Operand) (span : Span) :
    Except AssemblyError Command := do
  check mnemonic operands span
  match of? mnemonic operands with
  | some c => return c
  | none => throw (.malformed (.instruction (Line.instructionText mnemonic operands)) span)

/-- How many instructions of the machine a command is lowered to. -/
def size : Command → Nat
  | compute o .. => if o.negated then 2 else 1
  | computeWith o .. => if o.negated then 2 else 1
  | storeInt .. => 2
  | jumpIf .. => 2
  | sys _ => 2
  | sysOf _ => 2
  | exit _ => 2
  | exitWith _ => 2
  | _ => 1

end Command

end Polyglot.Assembly
