import Polyglot.Machine.Config
import Polyglot.Machine.Memory
import Polyglot.Machine.Program
import Polyglot.Machine.Syscall
import Polyglot.Text.Blank

/-!
# The machine

A machine runs one program. It is loaded at address four, the stack pointer
starts at the top of the memory, and the first instruction is the first word of
code. The machine stops when the program counter is zero, and the exit code is
the word in `a0`.

A machine is a value, and a step is a function from machines to machines. A step
that fails still has a machine to show: a call that reads a line has used up the
input before it finds that the line does not fit, and a step that leaves the
stack pointer below the stack limit has been made before it is found out. So a
step returns the machine after it *together with* what came of it, and not one
or the other.

Running is repeating the step. How long a program runs cannot be known, so a run
has an allowance of steps, and a run that uses it up says so. The allowance of
`run` is larger than any machine can use up in earnest.
-/

namespace Polyglot.Machine

/-- A machine with its program, its input and its output. -/
structure State where
  /-- The parameters it was made to. -/
  config : Config
  /-- The registers, except for the program counter. -/
  registers : Registers
  /-- The memory. -/
  memory : Memory
  /-- The address of the current instruction. -/
  pc : Int32
  /-- The address of the next instruction. -/
  nextPc : Int32
  /-- The first free address of the heap. -/
  heap : Nat
  /-- How many instructions were executed. -/
  steps : Nat
  /-- The input that was not read yet. -/
  input : List UInt8
  /-- The output so far. -/
  output : Array UInt8

namespace State

/-- A machine with a program loaded in it. -/
def load (config : Config) (program : Program) (input : List UInt8) : Except Fault State := do
  config.validate
  if loadAddress + program.imageSize > config.stackLimit then
    throw (.malformedProgram (.tooBig program.imageSize config.room))
  let memory ← (Memory.zeros config.memorySize).writeBytes loadAddress program.image
  let pc := Int32.ofNat program.entryPoint
  return {
    config
    registers := Registers.zeros.set .sp (Int32.ofNat config.memorySize)
    memory
    pc
    nextPc := pc
    heap := loadAddress + program.imageSize
    steps := 0
    input
    output := #[] }

/-- The word of a register. The program counter reads as the address of the
current instruction. -/
def readRegister (s : State) (r : Register) : Int32 :=
  if r = .pc then s.pc else s.registers.get r

/-- The machine after writing a register. Writing the program counter says
where the next instruction is. -/
def writeRegister (s : State) (r : Register) (value : Int32) : State :=
  if r = .pc then { s with nextPc := value } else { s with registers := s.registers.set r value }

/-- The result of an arithmetic or comparison operation. Arithmetic is modulo
`2 ^ 32`, division goes towards zero and the remainder has the sign of the
dividend, shifts take their amount modulo 32 and keep the sign, and a
comparison is one or zero. Only a division by zero has no result. -/
def compute? (op : AluOp) (a b : Int32) : Option Int32 :=
  let truth (p : Bool) : Int32 := if p then 1 else 0
  match op with
  | .add => some (a + b)
  | .sub => some (a - b)
  | .mul => some (a * b)
  | .div => if b = 0 then none else some (a / b)
  | .mod => if b = 0 then none else some (a % b)
  | .or => some (a ||| b)
  | .and => some (a &&& b)
  | .xor => some (a ^^^ b)
  | .eq => some (truth (a = b))
  | .gt => some (truth (b < a))
  | .ge => some (truth (b ≤ a))
  | .lt => some (truth (a < b))
  | .le => some (truth (a ≤ b))
  | .ls => some (a <<< b)
  | .rs => some (a >>> b)

/-- The first line of an input with its line feed, and what comes after it. -/
def cutLine : List UInt8 → List UInt8 × List UInt8
  | [] => ([], [])
  | b :: bs =>
    if b = 10 then ([b], bs)
    else
      let (line, rest) := cutLine bs
      (b :: line, rest)

/-- The integer that bytes spell, blanks around it ignored. Bytes that are no
text spell none. -/
def integerOfBytes? (bytes : List UInt8) : Option Int32 := do
  let text ← String.fromUTF8? ⟨bytes.toArray⟩
  let n ← Text.signed? 32 (Text.trim text.toList)
  return Int32.ofInt n

/-- The output with the decimal form of a word at its end. -/
def printWord (output : Array UInt8) (word : Int32) : Array UInt8 :=
  output ++ (toString word).toUTF8.data

/-- The machine after a call to the host, and the fault if the call failed. -/
def hostCall (s : State) : State × Except Fault Unit :=
  let arg := s.registers.get .a1
  let result (s : State) (value : Int32) : State × Except Fault Unit :=
    ({ s with registers := s.registers.set .a0 value }, .ok ())
  match Syscall.ofNumber? (s.registers.get .a0).toInt with
  | none => (s, .error (.invalidEnvCall (s.registers.get .a0) s.pc))
  | some .print =>
    match s.memory.readString arg.toInt with
    | .error e => (s, .error e)
    | .ok bytes => ({ s with output := s.output ++ bytes.toArray }, .ok ())
  | some .read =>
    let (line, rest) := cutLine s.input
    let s := { s with input := rest }
    match s.memory.range arg.toInt (line.length + 1) with
    | .error e => (s, .error e)
    | .ok a =>
      result { s with memory := s.memory.setBytes a (line ++ [0]) } (Int32.ofNat line.length)
  | some .stoi =>
    match s.memory.readString arg.toInt with
    | .error e => (s, .error e)
    | .ok bytes =>
      match integerOfBytes? bytes with
      | none => (s, .error (.invalidInteger arg))
      | some value => result s value
  | some .printi => ({ s with output := printWord s.output arg }, .ok ())
  | some .alloc =>
    let limit := s.config.stackLimit
    let top := (s.heap + arg.toInt.toNat + 3) / 4 * 4
    if arg < 0 ∨ top > limit then
      (s, .error (.outOfMemory arg ((limit : Int) - s.heap)))
    else result { s with heap := top } (Int32.ofNat s.heap)
  | some .free => (s, .ok ())

/-- The machine after carrying out an instruction, and the fault if that failed.
The program counter has not moved yet. -/
def execute (s : State) (i : Instruction) : State × Except Fault Unit :=
  let computed (op : AluOp) (dst : Register) (a b : Int32) : State × Except Fault Unit :=
    match compute? op a b with
    | none => (s, .error (.divisionByZero s.pc))
    | some value => (s.writeRegister dst value, .ok ())
  match i with
  | .branch op src1 src2 offset =>
    let equal := s.readRegister src1 == s.readRegister src2
    let taken := match op with
      | .beq => equal
      | .bne => !equal
    (if taken then { s with nextPc := s.pc + offset } else s, .ok ())
  | .immediate op dst src imm => computed op dst (s.readRegister src) imm
  | .operation op dst src1 src2 => computed op dst (s.readRegister src1) (s.readRegister src2)
  | .memory op reg base offset =>
    let address := (s.readRegister base).toInt + offset.toInt
    match op with
    | .load =>
      match s.memory.readWord address with
      | .error e => (s, .error e)
      | .ok word => (s.writeRegister reg word.toInt32, .ok ())
    | .store =>
      match s.memory.range address 4 with
      | .error e => (s, .error e)
      | .ok a =>
        let value := s.readRegister reg
        ({ s with memory := s.memory.setBytes a (wordBytes value.toUInt32) }, .ok ())
  | .jump offset => ({ s with nextPc := s.pc + offset }, .ok ())
  | .env .call => s.hostCall
  | .env .break => (s, .ok ())

/-- The instruction at the program counter. -/
def fetch (s : State) : Except Fault Instruction := do
  let word ← s.memory.readWord s.pc.toInt
  match Instruction.decode word with
  | .ok i => return i
  | .error source => throw (.decode s.pc source)

/-- Whether the steps of a configuration are used up, and how many they were. -/
def exhausted? (s : State) : Option Nat :=
  s.config.maxSteps.filter (· ≤ s.steps)

/-- Executes one instruction. The answer says whether the machine is still
going; a machine that has stopped stays as it is. -/
def step (s : State) : State × Except Fault Bool :=
  if s.pc = 0 then (s, .ok false)
  else
    match s.exhausted? with
    | some n => (s, .error (.stepLimit n))
    | none =>
      match s.fetch with
      | .error e => (s, .error e)
      | .ok i =>
        match { s with nextPc := s.pc + 4 }.execute i with
        | (s, .error e) => (s, .error e)
        | (s, .ok ()) =>
          let s := { s with pc := s.nextPc, steps := s.steps + 1 }
          let sp := s.registers.get .sp
          if sp.toInt < s.config.stackLimit then
            (s, .error (.stackOverflow sp s.config.stackLimit))
          else (s, .ok (s.pc != 0))

/-- Runs the machine for at most `allowance` steps. There is no answer if it is
still going after them; else the answer is the exit code or the fault. -/
def runFor : Nat → State → State × Option (Except Fault Int32)
  | 0, s => (s, none)
  | allowance + 1, s =>
    match s.step with
    | (s, .error e) => (s, some (.error e))
    | (s, .ok false) => (s, some (.ok (s.registers.get .a0)))
    | (s, .ok true) => runFor allowance s

/-- An allowance of steps that no run uses up: at a thousand million steps a
second it lasts for more than a century. -/
def unlimited : Nat := 0x4000000000000000

/-- Runs the machine until it stops. -/
def run (s : State) : State × Option (Except Fault Int32) :=
  s.runFor unlimited

end State

end Polyglot.Machine
