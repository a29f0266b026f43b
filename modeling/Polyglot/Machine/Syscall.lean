/-!
# Calls to the host

The services a program can ask the host for, by number. The number of a call is
in `a0` when it is made, its argument in `a1`, and its result replaces the
number.
-/

namespace Polyglot.Machine

/-- The calls to the host. -/
inductive Syscall where
  /-- Print the text at the argument. -/
  | print
  /-- Read a line into the memory at the argument; the result is its length. -/
  | read
  /-- Read the text at the argument as a decimal integer. -/
  | stoi
  /-- Print the argument in decimal. -/
  | printi
  /-- Reserve as many bytes as the argument says; the result is their address. -/
  | alloc
  /-- Give memory back. Nothing is ever reclaimed. -/
  | free
  deriving DecidableEq, Repr

namespace Syscall

/-- All calls, by number. -/
def all : List Syscall := [.print, .read, .stoi, .printi, .alloc, .free]

/-- The number of a call. -/
def number : Syscall → Nat
  | .print => 0
  | .read => 1
  | .stoi => 2
  | .printi => 3
  | .alloc => 4
  | .free => 5

/-- The name of a call. -/
def name : Syscall → String
  | .print => "print"
  | .read => "read"
  | .stoi => "stoi"
  | .printi => "printi"
  | .alloc => "alloc"
  | .free => "free"

/-- The call with a number. -/
def ofNumber? (n : Int) : Option Syscall :=
  all.find? fun s => (s.number : Int) == n

/-- The call with a name. -/
def ofName? (text : String) : Option Syscall :=
  all.find? (·.name == text)

end Syscall

end Polyglot.Machine
