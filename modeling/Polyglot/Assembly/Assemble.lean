import Polyglot.Assembly.Command

/-!
# Assembling

A listing becomes a program in two passes. The first one checks every line in
order and gives every label the number of the machine instruction that it stands
before. The second one lowers the commands, with the addresses that their labels
and texts stand for, and encodes what comes out.

The addresses of a program are not known while it is assembled, and need not be:
everything is relative to the program counter. A label is so many bytes from the
instruction that refers to it, and a text is so many bytes *before* it, for the
data section ends where the code starts.

The texts of the data section stand one after the other, each ended by a zero.
-/

namespace Polyglot.Assembly

open Polyglot.Source
open Polyglot.Machine (Register AluOp Instruction InstructionError Program)

/-! ## The first pass -/

/-- A command and the stretch of source it comes from. -/
structure Placed where
  /-- The command. -/
  command : Command
  /-- The stretch of source. -/
  span : Span
  deriving DecidableEq, Repr

/-- What the first pass finds out. -/
structure Outline where
  /-- The labels, with the numbers of the instructions they stand before. -/
  labels : List (String × Nat)
  /-- The commands in order. -/
  commands : List Placed
  deriving DecidableEq, Repr

/-- Goes through lines, the first of which stands at the instruction with the
number `site`, given the labels before them. -/
def outlineFrom (labels : List (String × Nat)) (site : Nat) :
    List Line → Except AssemblyError Outline
  | [] => .ok ⟨labels, []⟩
  | .label name span :: lines =>
    if (labels.lookup name).isSome then .error (.duplicateLabel name span)
    else outlineFrom (labels ++ [(name, site)]) site lines
  | .instruction mnemonic operands span :: lines => do
    let command ← Command.ofLine mnemonic operands span
    let rest ← outlineFrom labels (site + command.size) lines
    return { rest with commands := ⟨command, span⟩ :: rest.commands }

/-- The labels and commands of lines. -/
def outline (lines : List Line) : Except AssemblyError Outline :=
  outlineFrom [] 0 lines

/-! ## The data section -/

/-- The bytes of a text, ended by a zero. -/
def constantBytes (text : String) : List UInt8 :=
  text.toUTF8.data.toList ++ [0]

/-- The bytes of the data section. -/
def dataBytes (constants : List String) : List UInt8 :=
  constants.flatMap constantBytes

/-- The size of the data section in bytes, in whole words. -/
def dataSize (constants : List String) : Nat :=
  ((dataBytes constants).length + 3) / 4 * 4

/-- Where a text starts in the data section. -/
def constantStart? (constants : List String) (index : Nat) : Option Nat :=
  if index < constants.length then some (dataBytes (constants.take index)).length else none

/-! ## The second pass -/

/-- What references are resolved with. -/
structure Scope where
  /-- The texts of the data section. -/
  constants : List String
  /-- The labels, with the numbers of the instructions they stand before. -/
  labels : List (String × Nat)

/-- A number as a word of 32 bits. -/
def wordOf (value : Int) : Except InstructionError Int32 :=
  if -0x80000000 ≤ value ∧ value < 0x80000000 then .ok (Int32.ofInt value)
  else .error (.outOfRange .immediate value 32)

namespace Scope

/-- How many bytes it is from an instruction to a label. -/
def labelOffset (s : Scope) (name : String) (site : Nat) (span : Span) :
    Except AssemblyError Int :=
  match s.labels.lookup name with
  | some target => .ok (((target : Int) - site) * 4)
  | none => .error (.undefinedLabel name span)

/-- How many bytes it is from an instruction to a text. -/
def constantOffset (s : Scope) (index site : Nat) (span : Span) : Except AssemblyError Int :=
  match constantStart? s.constants index with
  | some start => .ok (-(4 * (site : Int) + ((dataSize s.constants : Int) - start)))
  | none => .error (.undefinedConstant index span)

/-- The instructions of the machine for a command at the instruction with the
number `site`. -/
def lower (s : Scope) (site : Nat) (span : Span) (c : Command) :
    Except AssemblyError (List Instruction) :=
  let word (value : Int) : Except AssemblyError Int32 :=
    (wordOf value).mapError (.encoding site span)
  let offsetTo (target : Target) : Except AssemblyError Int32 :=
    match target with
    | .label name => do word (← s.labelOffset name site span)
    | .offset bytes => word bytes
  let turned (o : Operation) (dst : Register) : List Instruction :=
    if o.negated then [.immediate .eq dst dst 0] else []
  match c with
  | .compute o dst left right => .ok (.operation o.op dst left right :: turned o dst)
  | .computeWith o dst left right => do
    return .immediate o.op dst left (← word right) :: turned o dst
  | .isZero dst src => .ok [.immediate .eq dst src 0]
  | .copy dst src => .ok [.operation .add dst src .zero]
  | .put dst (.int value) => do return [.immediate .add dst .zero (← word value)]
  | .put dst (.label name) => do
    return [.immediate .add dst .pc (← word (← s.labelOffset name site span))]
  | .put dst (.constant index) => do
    return [.immediate .add dst .pc (← word (← s.constantOffset index site span))]
  | .load dst base offset => do return [.memory .load dst base (← word offset)]
  | .store src base offset => do return [.memory .store src base (← word offset)]
  | .storeInt value base offset => do
    let value ← word value
    return [.immediate .add .t9 .zero value, .memory .store .t9 base (← word offset)]
  | .jump address => .ok [.operation .add .pc address .zero]
  | .jumpTo target => do return [.jump (← offsetTo target)]
  | .jumpIf address condition =>
    .ok [.branch .beq condition .zero 8, .operation .add .pc address .zero]
  | .jumpToIf target condition => do return [.branch .bne condition .zero (← offsetTo target)]
  | .sys number => .ok [.operation .add .a0 number .zero, .env .call]
  | .sysOf number => do return [.immediate .add .a0 .zero (← word number), .env .call]
  | .exit code => .ok [.operation .add .a0 code .zero, .operation .add .pc .zero .zero]
  | .exitWith code => do
    return [.immediate .add .a0 .zero (← word code), .operation .add .pc .zero .zero]

end Scope

/-- The words of instructions, the first of which has the number `index`. -/
def encodeFrom (span : Span) : Nat → List Instruction → Except AssemblyError (List UInt32)
  | _, [] => .ok []
  | index, i :: is => do
    let word ← i.encode.mapError (.encoding index span)
    return word :: (← encodeFrom span (index + 1) is)

/-- The words of commands, the first of which starts with the instruction with
the number `site`. -/
def generateFrom (s : Scope) (site : Nat) : List Placed → Except AssemblyError (List UInt32)
  | [] => .ok []
  | p :: ps => do
    let instructions ← s.lower site p.span p.command
    let words ← encodeFrom p.span site instructions
    return words ++ (← generateFrom s (site + words.length) ps)

/-- The program of a listing. -/
def Listing.assemble (l : Listing) : Except AssemblyError Program := do
  let found ← outline l.lines
  let code ← generateFrom ⟨l.constants, found.labels⟩ 0 found.commands
  return Program.ofDataBytes (dataBytes l.constants) code

/-- The program of a tree, raw or shaken. -/
def assemble (t : Tree) : Except AssemblyError Program := do
  (← Listing.ofTree t).assemble

end Polyglot.Assembly
