import Polyglot.Machine.Register
import Polyglot.Text.Numeral

/-!
# Instructions and their words

An instruction is one of six kinds. Its word starts with a code that no other
kind's code starts with – the kind is the number of ones before the first
zero – and the fields follow, from high to low:

* `0` branch: operation (1), two registers (5 each), offset (20);
* `10` immediate: operation (4), two registers (5 each), immediate (16);
* `110` memory: operation (1), two registers (5 each), offset (18);
* `1110` operation: operation (4), three registers (5 each), nine unused bits;
* `11110` jump: offset (27);
* `111110` environment: operation (1), twenty-five unused bits.

Offsets and immediates are signed. A field could also hold the negative number
that has no counterpart, but no instruction is written with it: the range of
what is accepted is symmetric. Reading a word is more lenient than writing one,
for it takes every value of a field and ignores the unused bits.

Words are put together by shifts and sums and taken apart by shifts and
remainders rather than by masks, so that the fields of a word are its digits in
a mixed radix, and a word is compared with the least word of the next kind.
-/

namespace Polyglot.Machine

/-- The tests a branch makes on its two registers. -/
inductive BranchOp where
  /-- Branch if they are equal. -/
  | beq
  /-- Branch if they differ. -/
  | bne
  deriving DecidableEq, Repr

/-- The arithmetic and comparison operations. -/
inductive AluOp where
  | add | sub | mul | div | mod | or | and | xor
  | eq | gt | ge | lt | le | ls | rs
  deriving DecidableEq, Repr

/-- The directions of a memory access. -/
inductive MemoryOp where
  /-- From memory to a register. -/
  | load
  /-- From a register to memory. -/
  | store
  deriving DecidableEq, Repr

/-- The requests to the host. -/
inductive EnvOp where
  /-- Call the host; the number of the call is in `a0`. -/
  | call
  /-- Show the registers to whoever watches the machine, and go on. -/
  | break
  deriving DecidableEq, Repr

/-- An instruction. -/
inductive Instruction where
  /-- Go to an offset from here if a test on two registers succeeds. -/
  | branch (op : BranchOp) (src1 src2 : Register) (offset : Int32)
  /-- Compute with a register and a constant. -/
  | immediate (op : AluOp) (dst src : Register) (imm : Int32)
  /-- Move a word between a register and the memory at `base + offset`. -/
  | memory (op : MemoryOp) (reg base : Register) (offset : Int32)
  /-- Compute with two registers. -/
  | operation (op : AluOp) (dst src1 src2 : Register)
  /-- Go to an offset from here. -/
  | jump (offset : Int32)
  /-- Ask the host for something. -/
  | env (op : EnvOp)
  deriving DecidableEq, Repr

/-- The signed fields of the instruction words. -/
inductive Field where
  | branchOffset | immediate | memoryOffset | jumpOffset
  deriving DecidableEq, Repr

namespace Field

/-- What a field is called. -/
def name : Field → String
  | branchOffset => "branch offset"
  | immediate => "immediate"
  | memoryOffset => "memory offset"
  | jumpOffset => "jump offset"

/-- How many bits a field has. -/
def bits : Field → Nat
  | branchOffset => 20
  | immediate => 16
  | memoryOffset => 18
  | jumpOffset => 27

/-- How many values a field has. -/
def size (field : Field) : Nat := Text.bitRange field.bits

end Field

/-- Why an instruction has no word, or a word no instruction. -/
inductive InstructionError where
  /-- The word starts with too many ones. -/
  | invalidPrefix (word : UInt32)
  /-- The word names an operation that does not exist. -/
  | invalidOpcode (word : UInt32)
  /-- A value does not fit its field. -/
  | outOfRange (field : Field) (value : Int) (bits : Nat)
  deriving DecidableEq, Repr

/-- The wording of an instruction error. -/
def InstructionError.message : InstructionError → String
  | .invalidPrefix word => s!"invalid instruction prefix in 0x{Text.hex 8 word.toNat}"
  | .invalidOpcode word => s!"invalid opcode in 0x{Text.hex 8 word.toNat}"
  | .outOfRange field value bits =>
    s!"{field.name} {value} does not fit in {bits} signed bits"

/-- Whether a value is written in a signed field of `bits` bits. The least value
the field could hold is left out. -/
def fits (value : Int) (bits : Nat) : Bool :=
  value.natAbs < Text.bitRange (bits - 1)

/-- The content of a signed field. -/
def Field.write (field : Field) (value : Int32) : Except InstructionError Nat :=
  if fits value.toInt field.bits then .ok (value.toInt % field.size).toNat
  else .error (.outOfRange field value.toInt field.bits)

/-- The value of a signed field whose bits are the lowest ones of `word`. -/
def Field.read (field : Field) (word : Nat) : Int32 :=
  let n := word % field.size
  Int32.ofInt (if n < field.size / 2 then n else (n : Int) - field.size)

namespace AluOp

/-- The operations in the order of their codes. -/
def all : List AluOp :=
  [.add, .sub, .mul, .div, .mod, .or, .and, .xor, .eq, .gt, .ge, .lt, .le, .ls, .rs]

/-- The code of an operation. -/
def code : AluOp → Nat
  | .add => 0 | .sub => 1 | .mul => 2 | .div => 3 | .mod => 4 | .or => 5 | .and => 6
  | .xor => 7 | .eq => 8 | .gt => 9 | .ge => 10 | .lt => 11 | .le => 12 | .ls => 13
  | .rs => 14

/-- The operation with a code. -/
def ofCode? (n : Nat) : Option AluOp := all[n]?

/-- The mnemonic of an operation on two registers. -/
def name : AluOp → String
  | .add => "add" | .sub => "sub" | .mul => "mul" | .div => "div" | .mod => "mod"
  | .or => "or" | .and => "and" | .xor => "xor" | .eq => "eq" | .gt => "gt"
  | .ge => "ge" | .lt => "lt" | .le => "le" | .ls => "ls" | .rs => "rs"

/-- The operation with a mnemonic. -/
def ofName? (text : String) : Option AluOp :=
  all.find? (·.name == text)

/-- The code of an operation names that operation. -/
@[simp] theorem ofCode?_code (op : AluOp) : ofCode? op.code = some op := by
  cases op <;> rfl

end AluOp

/-- The mnemonic of a branch. -/
def BranchOp.name : BranchOp → String
  | .beq => "beq"
  | .bne => "bne"

/-- The code of a branch. -/
def BranchOp.code : BranchOp → Nat
  | .beq => 0
  | .bne => 1

/-- The mnemonic of a memory access. -/
def MemoryOp.name : MemoryOp → String
  | .load => "load"
  | .store => "store"

/-- The code of a memory access. -/
def MemoryOp.code : MemoryOp → Nat
  | .load => 0
  | .store => 1

/-- The code of a request to the host. -/
def EnvOp.code : EnvOp → Nat
  | .call => 0
  | .break => 1

namespace Instruction

/-- The word of an instruction as a number. -/
def encodeNat : Instruction → Except InstructionError Nat
  | branch op src1 src2 offset => do
    let low ← Field.branchOffset.write offset
    return op.code <<< 30 + src1.index.val <<< 25 + src2.index.val <<< 20 + low
  | immediate op dst src imm => do
    let low ← Field.immediate.write imm
    return 0x80000000 + op.code <<< 26 + dst.index.val <<< 21 + src.index.val <<< 16 + low
  | memory op reg base offset => do
    let low ← Field.memoryOffset.write offset
    return 0xc0000000 + op.code <<< 28 + reg.index.val <<< 23 + base.index.val <<< 18 + low
  | operation op dst src1 src2 =>
    return 0xe0000000 + op.code <<< 24 + dst.index.val <<< 19 + src1.index.val <<< 14
      + src2.index.val <<< 9
  | jump offset => do
    let low ← Field.jumpOffset.write offset
    return 0xf0000000 + low
  | env op => return 0xf8000000 + op.code <<< 25

/-- The word of an instruction. -/
def encode (i : Instruction) : Except InstructionError UInt32 :=
  i.encodeNat.map UInt32.ofNat

/-- The register whose number stands `shift` bits above the lowest. -/
def registerAt (word shift : Nat) : Register :=
  ⟨⟨word >>> shift % 32, Nat.mod_lt _ (by decide)⟩⟩

/-- The instruction of a word. -/
def decode (word : UInt32) : Except InstructionError Instruction :=
  let w := word.toNat
  if w < 0x80000000 then
    .ok <| branch (if w >>> 30 % 2 = 0 then .beq else .bne) (registerAt w 25)
      (registerAt w 20) (Field.branchOffset.read w)
  else if w < 0xc0000000 then
    match AluOp.ofCode? (w >>> 26 % 16) with
    | none => .error (.invalidOpcode word)
    | some op => .ok <| immediate op (registerAt w 21) (registerAt w 16) (Field.immediate.read w)
  else if w < 0xe0000000 then
    .ok <| memory (if w >>> 28 % 2 = 0 then .load else .store) (registerAt w 23)
      (registerAt w 18) (Field.memoryOffset.read w)
  else if w < 0xf0000000 then
    match AluOp.ofCode? (w >>> 24 % 16) with
    | none => .error (.invalidOpcode word)
    | some op => .ok <| operation op (registerAt w 19) (registerAt w 14) (registerAt w 9)
  else if w < 0xf8000000 then
    .ok <| jump (Field.jumpOffset.read w)
  else if w < 0xfc000000 then
    .ok <| env (if w >>> 25 % 2 = 0 then .call else .break)
  else .error (.invalidPrefix word)

/-- The instruction as a line of a listing. -/
def text : Instruction → String
  | branch op src1 src2 offset => s!"{op.name} {src1}, {src2}, {offset}"
  | immediate op dst src imm => s!"{op.name}i {dst}, {src}, {imm}"
  | memory op reg base offset => s!"{op.name} {reg}, [{base} + {offset}]"
  | operation op dst src1 src2 => s!"{op.name} {dst}, {src1}, {src2}"
  | jump offset => s!"jump {offset}"
  | env .call => "env"
  | env .break => "envbreak"

end Instruction

end Polyglot.Machine
