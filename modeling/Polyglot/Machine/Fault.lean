import Polyglot.Machine.Instruction

/-!
# Faults

Everything that can go wrong when a program is read, loaded or run, with its
wording. Programs and configurations are refused for reasons of their own
(`Malformed`, `Unusable`), which a fault wraps.
-/

namespace Polyglot.Machine

/-- Why a program cannot be read or loaded. -/
inductive Malformed where
  /-- The file is not made of whole words. -/
  | partialWord (size : Nat)
  /-- The file is too short to have a header. -/
  | missingHeader
  /-- The header declares a code section that is not made of whole words. -/
  | partialCode (size : Nat)
  /-- The sections that the header declares do not add up to the rest of the file. -/
  | bodySize (dataWords codeBytes bodyWords : Nat)
  /-- There is no room for the program below the stack. -/
  | tooBig (needed available : Nat)
  deriving DecidableEq, Repr

/-- The wording of a refusal. -/
def Malformed.message : Malformed → String
  | .partialWord size => s!"the size {size} is not a whole number of words"
  | .missingHeader => "missing header"
  | .partialCode size => s!"the code size {size} is not a multiple of 4"
  | .bodySize dataWords codeBytes bodyWords =>
    s!"the header declares {dataWords} data words and {codeBytes} code bytes, "
      ++ s!"but the body has {bodyWords} words"
  | .tooBig needed available =>
    s!"the program needs {needed} bytes but only {available} are available below the stack"

/-- Why no machine can be made to a configuration. -/
inductive Unusable where
  /-- The size of the memory is out of bounds. -/
  | memorySize (size : Nat)
  /-- The stack fills the memory. -/
  | stackSize (stack memory : Nat)
  deriving DecidableEq, Repr

/-- The wording of a refusal. -/
def Unusable.message : Unusable → String
  | .memorySize size => s!"the memory size {size} must be a multiple of 4 that fits 31 bits"
  | .stackSize stack memory =>
    s!"the stack size {stack} must be smaller than the memory size {memory}"

/-- What ends the loading or the run of a program before its time. -/
inductive Fault where
  /-- An access outside the memory. -/
  | segmentFault (address : Int)
  /-- A call to the host with a number that no call has. -/
  | invalidEnvCall (call pc : Int32)
  /-- The stack pointer is below the stack region. -/
  | stackOverflow (sp : Int32) (limit : Nat)
  /-- The heap cannot grow by what a program asks for. -/
  | outOfMemory (requested : Int32) (available : Int)
  /-- The word at the program counter is no instruction. -/
  | decode (pc : Int32) (source : InstructionError)
  /-- A division, or a remainder, by zero. -/
  | divisionByZero (pc : Int32)
  /-- A text that a program wants to read as an integer is none. -/
  | invalidInteger (address : Int32)
  /-- The program is refused. -/
  | malformedProgram (reason : Malformed)
  /-- The configuration is refused. -/
  | invalidConfig (reason : Unusable)
  /-- The program has used up the steps it was given. -/
  | stepLimit (steps : Nat)
  deriving DecidableEq, Repr

/-- The wording of a fault. -/
def Fault.message : Fault → String
  | .segmentFault address => s!"segment fault at address {address}"
  | .invalidEnvCall call pc => s!"invalid env call {call} at pc {pc}"
  | .stackOverflow sp limit => s!"stack overflow: sp is {sp}, the stack ends at {limit}"
  | .outOfMemory requested available =>
    s!"out of memory: cannot allocate {requested} bytes, {available} available"
  | .decode pc source => s!"cannot decode the instruction at pc {pc}: {source.message}"
  | .divisionByZero pc => s!"division by zero at pc {pc}"
  | .invalidInteger address => s!"invalid integer at address {address}"
  | .malformedProgram reason => s!"malformed program: {reason.message}"
  | .invalidConfig reason => s!"invalid machine configuration: {reason.message}"
  | .stepLimit steps => s!"the program did not stop after {steps} steps"

/-- The fault and what caused it, as separate messages. -/
def Fault.chain : Fault → List String
  | .decode pc source => [(Fault.decode pc source).message, source.message]
  | fault => [fault.message]

end Polyglot.Machine
