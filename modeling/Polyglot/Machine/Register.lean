/-!
# Registers

The machine has thirty-two registers. Each has a number and a conventional name
that says what it is for: the zero register, the program counter, the stack
pointer, the return address, and then temporaries, arguments and saved
registers. Register zero always reads as zero.

The program counter has a number like any other register but no cell of its own
in the register file that matters: the machine answers for it. The file is
plain data and treats it as a cell like the others.
-/

namespace Polyglot.Machine

/-- How many registers there are. -/
def registerCount : Nat := 32

/-- A register, named by its number. -/
structure Register where
  /-- The number of the register. -/
  index : Fin 32
  deriving DecidableEq, Repr

namespace Register

/-- The register that always reads as zero. -/
def zero : Register := ⟨0⟩

/-- The program counter. -/
def pc : Register := ⟨1⟩

/-- The stack pointer. -/
def sp : Register := ⟨2⟩

/-- The return address of a call. -/
def ra : Register := ⟨3⟩

/-- The first temporary. -/
def t0 : Register := ⟨4⟩

/-- The second temporary. -/
def t1 : Register := ⟨5⟩

/-- The third temporary. -/
def t2 : Register := ⟨6⟩

/-- The last temporary, which assembled instructions may use as scratch. -/
def t9 : Register := ⟨13⟩

/-- The first argument, which also holds results. -/
def a0 : Register := ⟨14⟩

/-- The second argument. -/
def a1 : Register := ⟨15⟩

/-- Every register, by number. -/
def all : List Register := (List.finRange 32).map Register.mk

/-- The register with a number, if there is one. -/
def ofNat? (n : Nat) : Option Register :=
  if h : n < 32 then some ⟨⟨n, h⟩⟩ else none

/-- The `n`-th argument register. There are six. -/
def argument? (n : Nat) : Option Register :=
  if h : n < 6 then some ⟨⟨14 + n, by omega⟩⟩ else none

/-- The argument registers. -/
def arguments : List Register := (List.range 6).filterMap argument?

/-- The conventional name of a register. -/
def name (r : Register) : String :=
  let n := r.index.val
  if n = 0 then "r0"
  else if n = 1 then "pc"
  else if n = 2 then "sp"
  else if n = 3 then "ra"
  else if n < 14 then s!"t{n - 4}"
  else if n < 20 then s!"a{n - 14}"
  else s!"s{n - 20}"

instance : ToString Register := ⟨name⟩

/-- The register a text names, by its conventional name or as `r` and its
number. Numbers have no leading zeros and names no capitals. -/
def ofName? (text : String) : Option Register :=
  all.find? fun r => r.name == text || s!"r{r.index.val}" == text

end Register

/-- The register file: a word for every register. -/
structure Registers where
  /-- The words, by register number. -/
  words : Vector Int32 32

namespace Registers

/-- The file at the start, all zeros. -/
def zeros : Registers := ⟨Vector.replicate 32 0⟩

/-- The word of a register. -/
def get (rs : Registers) (r : Register) : Int32 :=
  rs.words[r.index]

/-- The file after writing a word. A write to register zero is dropped. -/
def set (rs : Registers) (r : Register) (value : Int32) : Registers :=
  if r = .zero then rs else ⟨rs.words.set r.index value⟩

/-- The registers with their words, by number. -/
def toList (rs : Registers) : List (Register × Int32) :=
  Register.all.map fun r => (r, rs.get r)

@[simp] theorem get_zeros (r : Register) : zeros.get r = 0 := by
  simp [get, zeros]

/-- Reading after a write gives the written word, except for register zero. -/
@[simp] theorem get_set_self {rs : Registers} {r : Register} {value : Int32} (h : r ≠ .zero) :
    (rs.set r value).get r = value := by
  simp [get, set, h]

/-- A write changes no other register. -/
@[simp] theorem get_set_of_ne {rs : Registers} {r r' : Register} {value : Int32} (h : r' ≠ r) :
    (rs.set r value).get r' = rs.get r' := by
  unfold get set
  split
  · rfl
  · have : r.index.val ≠ r'.index.val := fun e => h (by cases r; cases r'; simp_all [Fin.ext_iff])
    simp [this]

end Registers

end Polyglot.Machine
