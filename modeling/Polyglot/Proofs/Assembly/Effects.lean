import Polyglot.Proofs.Assembly.Layout
import Polyglot.Proofs.Machine.Reachable

/-!
# What instructions mean

The instructions of the assembly language have meanings of their own, which say nothing of the words that they
are lowered to. An instruction reads its operands, and what comes out is an *effect* (`Effect`): a
register is set, a word goes to or from memory, the program goes on somewhere else, the host
is called, or the program ends. Which effect it is depends on the mnemonic and the operands only
(`meaning?`), and after an effect the stack pointer is compared with the stack limit, once.

The words of an instruction are one or two, and a machine executes them one after the other. It
arrives at a machine on which the instruction had its effect, or stops with a fault of the kind that the
effect has (`State.Yields`). So nothing of what is between two words can be seen: not a stack pointer
that is too low for the moment, and not the last temporary, except that a number that is stored is left
in it.
-/

namespace Polyglot.Assembly

open Polyglot.Source
open Polyglot.Machine

/-! ## Effects -/

/-- What an instruction is to do, once its operands were read. -/
inductive Effect where
  /-- A register is set, unless there is no value as it would be divided by zero. -/
  | assign (dst : Register) (value : Option Int32)
  /-- A register is set to a word of the memory. -/
  | load (dst : Register) (address : Int)
  /-- A word of the memory is set. -/
  | store (address : Int) (value : Int32)
  /-- The program goes on somewhere. -/
  | goTo (address : Int32)
  /-- The host is called, with a number. -/
  | call (number : Int32)
  /-- The program ends, with an exit code. -/
  | stop (code : Int32)

/-- The machine after an instruction, or the fault if the stack pointer is below the stack limit. -/
def settle (s : State) : Except Fault State :=
  if (s.registers.get .sp).toInt < s.config.stackLimit then
    .error (.stackOverflow (s.registers.get .sp) s.config.stackLimit)
  else .ok s

/-- The machine after an effect, or why there is none. If it is not said where the program goes on, then
at the next instruction. A register is set as far as that is possible: register zero stays zero. -/
def Effect.perform (next : Int32) (s : State) : Effect → Except Fault State
  | assign _ none => .error (.divisionByZero s.pc)
  | assign dst (some value) =>
    settle { s with registers := s.registers.set dst value, pc := next }
  | load dst address => do
    let word ← s.memory.readWord address
    settle { s with registers := s.registers.set dst word.toInt32, pc := next }
  | store address value => do
    let memory ← s.memory.writeWord address value.toUInt32
    settle { s with memory, pc := next }
  | goTo address => settle { s with pc := address }
  | call number =>
    match ({ s with registers := s.registers.set .a0 number } : State).hostCall with
    | (_, .error fault) => .error fault
    | (t, .ok ()) => settle { t with pc := next }
  | stop code => settle { s with registers := s.registers.set .a0 code, pc := 0 }

/-- A truth value as a word. -/
def truth (p : Prop) [Decidable p] : Int32 := if p then 1 else 0

/-- What the arithmetic mnemonics compute. -/
def results : List (String × (Int32 → Int32 → Option Int32)) :=
  [("add", fun a b => some (a + b)), ("sub", fun a b => some (a - b)),
   ("mul", fun a b => some (a * b)), ("div", fun a b => if b = 0 then none else some (a / b)),
   ("mod", fun a b => if b = 0 then none else some (a % b)), ("or", fun a b => some (a ||| b)),
   ("and", fun a b => some (a &&& b)), ("xor", fun a b => some (a ^^^ b)),
   ("eq", fun a b => some (truth (a = b))), ("neq", fun a b => some (truth (a ≠ b))),
   ("gt", fun a b => some (truth (b < a))), ("geq", fun a b => some (truth (b ≤ a))),
   ("lt", fun a b => some (truth (a < b))), ("leq", fun a b => some (truth (a ≤ b))),
   ("ls", fun a b => some (a <<< b)), ("rs", fun a b => some (a >>> b))]

/-- Where the code of a listing stands, and what its references refer to. -/
structure Placement where
  /-- The labels and the texts. -/
  scope : Scope
  /-- The address of the first instruction. -/
  start : Int32

namespace Placement

variable (p : Placement)

/-- The address of a label. -/
def label? (name : String) : Option Int32 :=
  (p.scope.labels.lookup name).map fun n => p.start + Int32.ofNat (4 * n)

/-- The address of a text. The texts stand before the first instruction. -/
def text? (index : Nat) : Option Int32 :=
  (constantStart? p.scope.constants index).map fun n =>
    p.start - Int32.ofNat (dataSize p.scope.constants) + Int32.ofNat n

/-- The address that an operand refers to, in an instruction at an address. -/
def target? (pc : Int32) : Operand → Option Int32
  | .label name => p.label? name
  | .int bytes => some (pc + Int32.ofInt bytes)
  | _ => none

end Placement

/-- **What an instruction means**, by its mnemonic and its operands. -/
def meaning? (p : Placement) (next : Int32) (s : State) (mnemonic : String) (operands : List Operand) :
    Option Effect :=
  let word := s.registers.get
  match mnemonic, operands with
  | "not", [.register d, .register a] => some (.assign d (some (truth (word a = 0))))
  | "set", [.register d, .register a] => some (.assign d (some (word a)))
  | "setv", [.register d, .int value] => some (.assign d (some (Int32.ofInt value)))
  | "setv", [.register d, .label name] => (p.label? name).map (.assign d ∘ some)
  | "setv", [.register d, .constant index] => (p.text? index).map (.assign d ∘ some)
  | "load", [.register d, .register base, .int k] => some (.load d ((word base).toInt + k))
  | "store", [.register a, .register base, .int k] => some (.store ((word base).toInt + k) (word a))
  | "storev", [.int value, .register base, .int k] =>
    some (.store ((word base).toInt + k) (Int32.ofInt value))
  | "jump", [.register a] => some (.goTo (word a))
  | "jumpv", [place] => (p.target? s.pc place).map .goTo
  | "jumpif", [.register a, .register c] => some (.goTo (if word c = 0 then next else word a))
  | "jumpifv", [place, .register c] =>
    (p.target? s.pc place).map fun address => .goTo (if word c = 0 then next else address)
  | "sys", [.register a] => some (.call (word a))
  | "sysv", [.int number] => some (.call (Int32.ofInt number))
  | "exit", [.register a] => some (.stop (word a))
  | "exitv", [.int code] => some (.stop (Int32.ofInt code))
  | _, [.register d, .register a, .register b] =>
    (results.lookup mnemonic).map fun f => .assign d (f (word a) (word b))
  | _, [.register d, .register a, .int value] =>
    ((immediateForm? mnemonic).bind fun m => results.lookup m).map fun f =>
      .assign d (f (word a) (Int32.ofInt value))
  | _, _ => none

/-! ## Executing words -/

/-- Whether a machine has executed as many words as that, one after the other, and is going. -/
structure Executed (s : State) (count : Nat) (t : State) : Prop where
  /-- It has made as many steps. -/
  advances : s.Advances count t
  /-- It is at the word after those. -/
  pc : t.pc = s.pc + Int32.ofNat (4 * count)

/-- Whether machines are the same but for the number of steps, and the last temporary if it is used
as scratch. -/
def SameBut (scratch : Bool) (s t : State) : Prop :=
  t = { s with
    steps := t.steps
    nextPc := s.pc
    registers := if scratch then s.registers.set .t9 (t.registers.get .t9) else s.registers }

/-- **Whether executing words**, as many as that at most, yields a machine, or a fault of the same kind. Of
the steps that are made, only the last one gives an answer: the machine is going, has come to its end or
has stopped with a fault. -/
def Yields (s : State) (size : Nat) (scratch : Bool) : Except Fault State → Prop
  | .ok t => ∃ count < size, ∃ u v, Executed s count u ∧ u.step = (v, .ok (v.pc != 0))
      ∧ SameBut scratch t v
  | .error fault => ∃ count < size, ∃ u v fault', Executed s count u
      ∧ u.step = (v, .error fault') ∧ fault'.kind = fault.kind

end Polyglot.Assembly
