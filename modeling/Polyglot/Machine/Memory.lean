import Polyglot.Machine.Fault
import Std.Data.HashMap

/-!
# Memory

A flat memory of bytes. Only the bytes that were ever written are kept, so that
a memory of two gigabytes costs nothing until it is used; every other byte is
zero. The view of a memory is the function `byte` from addresses to bytes, and
each operation says what it does to that function.

Addresses come from 32-bit arithmetic on signed words and may be anything: an
access checks that all the bytes it touches are in the memory before it touches
any of them, and the fault names the address the access started from.
-/

namespace Polyglot.Machine

/-- A memory. -/
structure Memory where
  /-- How many bytes there are. -/
  size : Nat
  /-- The bytes that were written, by address. -/
  written : Std.HashMap Nat UInt8

/-- The bytes of a word, the lowest first. -/
def wordBytes (word : UInt32) : List UInt8 :=
  let n := word.toNat
  [UInt8.ofNat n, UInt8.ofNat (n >>> 8), UInt8.ofNat (n >>> 16), UInt8.ofNat (n >>> 24)]

/-- The word made of four bytes, the lowest first. -/
def wordOfBytes (b₀ b₁ b₂ b₃ : UInt8) : UInt32 :=
  UInt32.ofNat (b₀.toNat + b₁.toNat <<< 8 + b₂.toNat <<< 16 + b₃.toNat <<< 24)

namespace Memory

/-- A memory of `size` zeros. -/
def zeros (size : Nat) : Memory := ⟨size, ∅⟩

/-- The byte at an address. -/
def byte (m : Memory) (address : Nat) : UInt8 :=
  m.written.getD address 0

/-- The memory with one byte changed. -/
def setByte (m : Memory) (address : Nat) (value : UInt8) : Memory :=
  { m with written := m.written.insert address value }

/-- The memory with the bytes from `address` on changed. -/
def setBytes (m : Memory) (address : Nat) : List UInt8 → Memory
  | [] => m
  | b :: bs => (m.setByte address b).setBytes (address + 1) bs

/-- The start of an access to `length` bytes, if all of them are in the memory. -/
def range (m : Memory) (address : Int) (length : Nat) : Except Fault Nat :=
  if address < 0 ∨ address + length > m.size then .error (.segmentFault address)
  else .ok address.toNat

/-- The word at an address. -/
def readWord (m : Memory) (address : Int) : Except Fault UInt32 := do
  let a ← m.range address 4
  return wordOfBytes (m.byte a) (m.byte (a + 1)) (m.byte (a + 2)) (m.byte (a + 3))

/-- The memory with the word at an address changed. -/
def writeWord (m : Memory) (address : Int) (value : UInt32) : Except Fault Memory := do
  let a ← m.range address 4
  return m.setBytes a (wordBytes value)

/-- The byte at an address, if it is in the memory. -/
def readByte (m : Memory) (address : Int) : Except Fault UInt8 := do
  let a ← m.range address 1
  return m.byte a

/-- The memory with the bytes from an address on changed. -/
def writeBytes (m : Memory) (address : Int) (bytes : List UInt8) : Except Fault Memory := do
  let a ← m.range address bytes.length
  return m.setBytes a bytes

/-- The bytes from `address` up to the first zero, looking at no more than
`count` of them. -/
def bytesToZero (m : Memory) (address : Nat) : Nat → Option (List UInt8)
  | 0 => none
  | count + 1 =>
    let b := m.byte address
    if b = 0 then some [] else (m.bytesToZero (address + 1) count).map (b :: ·)

/-- The bytes from an address up to the first zero, without it. If the memory
ends before a zero comes, the fault is at its end. -/
def readString (m : Memory) (address : Int) : Except Fault (List UInt8) := do
  let a ← m.range address 0
  match m.bytesToZero a (m.size - a) with
  | some bytes => return bytes
  | none => throw (.segmentFault m.size)

@[simp] theorem byte_zeros (size address : Nat) : (zeros size).byte address = 0 := by
  simp [byte, zeros]

@[simp] theorem size_setByte (m : Memory) (a : Nat) (b : UInt8) :
    (m.setByte a b).size = m.size := rfl

/-- A changed byte reads as what was written, and every other byte as before. -/
theorem byte_setByte (m : Memory) (a a' : Nat) (b : UInt8) :
    (m.setByte a b).byte a' = if a = a' then b else m.byte a' := by
  simp only [byte, setByte, Std.HashMap.getD_insert, beq_iff_eq]

@[simp] theorem size_setBytes (m : Memory) (a : Nat) (bs : List UInt8) :
    (m.setBytes a bs).size = m.size := by
  induction bs generalizing m a with
  | nil => rfl
  | cons b bs ih => simp [setBytes, ih]

end Memory

end Polyglot.Machine
