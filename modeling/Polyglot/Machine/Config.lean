import Polyglot.Machine.Fault
import Polyglot.Machine.Program

/-!
# Machine configurations

The sizes of the memory and of its stack region, and how many steps a program
may take. The three can be set by variables of the environment; a variable that
does not hold a number of 64 bits is ignored.

The stack lives at the top of the memory and may not go below the stack limit,
which is where the room for programs and their heap ends.
-/

namespace Polyglot.Machine

/-- The parameters of a machine. -/
structure Config where
  /-- The size of the memory in bytes. -/
  memorySize : Nat := 2 * 1024 * 1024
  /-- The size of the stack region in bytes. -/
  stackSize : Nat := 16 * 1024
  /-- After how many instructions to stop the program, if ever. -/
  maxSteps : Option Nat := none
  deriving DecidableEq, Repr

namespace Config

/-- The value of a numeric variable of the environment. -/
def setting? (env : List (String × String)) (name : String) : Option Nat := do
  Text.unsigned? 64 (← env.lookup name)

/-- The configuration that the variables of an environment ask for. -/
def ofEnvironment (env : List (String × String)) : Config :=
  let default : Config := {}
  { memorySize := (setting? env "WORKBENCH_MEM_SIZE").getD default.memorySize
    stackSize := (setting? env "WORKBENCH_STACK_SIZE").getD default.stackSize
    maxSteps := setting? env "WORKBENCH_MAX_STEPS" }

/-- The lowest address that the stack may use. -/
def stackLimit (c : Config) : Nat := c.memorySize - c.stackSize

/-- Checks that a machine can be made to this configuration: the memory has
whole words and addresses of at most 31 bits, and the stack leaves room. -/
def validate (c : Config) : Except Fault Unit :=
  if c.memorySize ≥ Text.bitRange 31 ∨ c.memorySize % 4 ≠ 0 then
    .error (.invalidConfig (.memorySize c.memorySize))
  else if c.stackSize ≥ c.memorySize then
    .error (.invalidConfig (.stackSize c.stackSize c.memorySize))
  else .ok ()

/-- The room for a program below the stack, counted in 64-bit words: when the
stack limit is below the load address, the count goes round. -/
def room (c : Config) : Nat :=
  (Text.bitRange 64 + c.stackLimit - loadAddress) % Text.bitRange 64

end Config

end Polyglot.Machine
