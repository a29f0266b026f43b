import Mathlib
import Polyglot.Proofs.Machine.Contents

/-!
# Room for programs

A program is loaded from address four up to the stack limit. The sizes of memory and stack are checked
before anything is counted with them, so the stack limit is their difference as a number
(`Config.cast_stackLimit`), and loading is a matter of one comparison: **a program is loaded just if the
load address and its image fit below the stack limit** (`State.load_eq`).

The count of bytes that a refusal names is a second difference, of the stack limit and the load address,
and no check covers it. It is the number of bytes there are only if the stack limit is not below the load
address. The three configurations of each size of memory that leave one, two or three bytes below the
stack pass the check, and for them the count goes round at 64 bits
(`Config.room_of_lt`): a program that does not fit is told of some `2 ^ 64` bytes.
-/

namespace Polyglot.Machine

namespace Config

variable {c : Config}

/-- The stack limit of a configuration that is in order is the difference of its sizes. -/
theorem cast_stackLimit (valid : c.validate = .ok ()) :
    (c.stackLimit : Int) = c.memorySize - c.stackSize := by
  obtain ⟨-, -, less⟩ := State.memorySize_lt_of_validate valid
  exact Int.ofNat_sub (Nat.le_of_lt less)

/-- The stack limit of a configuration that is in order is the address of a byte in the lower half of
32-bit words. -/
theorem stackLimit_lt (valid : c.validate = .ok ()) : 0 < c.stackLimit ∧ c.stackLimit < 2 ^ 31 := by
  obtain ⟨small, -, less⟩ := State.memorySize_lt_of_validate valid
  unfold stackLimit
  omega

theorem room_of_le (valid : c.validate = .ok ()) (le : loadAddress ≤ c.stackLimit) :
    c.room = c.stackLimit - loadAddress := by
  obtain ⟨-, small⟩ := stackLimit_lt valid
  have range : Text.bitRange 64 = 2 ^ 64 := rfl
  rw [room, Nat.add_sub_assoc le, Nat.add_mod_left, Nat.mod_eq_of_lt (by omega)]

/-- **Below the load address the count goes round.** -/
theorem room_of_lt (less : c.stackLimit < loadAddress) :
    c.room = 2 ^ 64 - (loadAddress - c.stackLimit) := by
  have range : Text.bitRange 64 = 2 ^ 64 := rfl
  have load : loadAddress = 4 := rfl
  rw [room, Nat.mod_eq_of_lt (by omega), range]
  omega

/-- The count is the number of bytes just if the stack limit is not below the load address. -/
theorem cast_room_iff (valid : c.validate = .ok ()) :
    (c.room : Int) = c.memorySize - c.stackSize - loadAddress ↔ loadAddress ≤ c.stackLimit := by
  have limit := cast_stackLimit valid
  have load : loadAddress = 4 := rfl
  refine ⟨fun same => ?_, fun le => ?_⟩
  · omega
  · rw [room_of_le valid le, Int.ofNat_sub le, limit]

end Config

namespace State

variable {config : Config} {p : Program}

/-- A program that fits below the stack is loaded. -/
theorem load_of_le (valid : config.validate = .ok ())
    (le : loadAddress + p.imageSize ≤ config.stackLimit) (input : List UInt8) :
    ∃ s, load config p input = .ok s := by
  simp only [load, valid, Nat.not_lt.2 le, ↓reduceIte, Memory.writeBytes, range_image le, bind,
    Except.bind, pure, Except.pure]
  exact ⟨_, rfl⟩

/-- One that does not is refused. -/
theorem load_of_lt (valid : config.validate = .ok ())
    (less : config.stackLimit < loadAddress + p.imageSize) (input : List UInt8) :
    load config p input = .error (.malformedProgram (.tooBig p.imageSize config.room)) := by
  simp only [load, valid, less, ↓reduceIte, bind, Except.bind, throw, throwThe, MonadExceptOf.throw]

/-- **Loading is one comparison.** For a configuration that is in order the stack limit does not go
round, and a program is loaded just if the load address and its image fit below it. Else the refusal
names the bytes of the image and those there are for it, and this second number is right just if
the stack limit is not below the load address. If it is, every program is refused with a number that
went round at 64 bits. -/
theorem load_compares (valid : config.validate = .ok ()) (p : Program) (input : List UInt8) :
    (config.stackLimit : Int) = config.memorySize - config.stackSize
    ∧ ((∃ s, load config p input = .ok s)
      ↔ loadAddress + p.image.length ≤ config.memorySize - config.stackSize)
    ∧ (config.memorySize - config.stackSize < loadAddress + p.image.length →
      load config p input = .error (.malformedProgram (.tooBig p.image.length config.room)))
    ∧ ((config.room : Int) = config.memorySize - config.stackSize - loadAddress
      ↔ loadAddress ≤ config.stackLimit)
    ∧ (config.stackLimit < loadAddress → load config p input = .error (.malformedProgram
        (.tooBig p.image.length (2 ^ 64 - (loadAddress - config.stackLimit))))) := by
  rw [Program.length_image]
  refine ⟨Config.cast_stackLimit valid, ⟨fun ⟨_, loaded⟩ => (load_eq_ok loaded).2.1,
    fun le => load_of_le valid le input⟩, fun less => load_of_lt valid less input,
    Config.cast_room_iff valid, fun less => ?_⟩
  rw [load_of_lt valid (Nat.lt_of_lt_of_le less (Nat.le_add_right _ _)), Config.room_of_lt less]

/-- A memory of sixteen words with room for one of them: a program of two is told so. -/
theorem load_compares_two : Config.validate ⟨64, 56, none⟩ = .ok ()
    ∧ load ⟨64, 56, none⟩ ⟨[], [0, 0]⟩ [] = .error (.malformedProgram (.tooBig 8 4)) := by
  have valid : Config.validate ⟨64, 56, none⟩ = .ok () := rfl
  obtain ⟨-, -, refused, -⟩ := load_compares valid ⟨[], [0, 0]⟩ []
  exact ⟨valid, refused (by decide)⟩

/-- With one byte below the stack, a program of no bytes is told of some `2 ^ 64` that it may have. -/
theorem room_goes_round : Config.validate ⟨64, 63, none⟩ = .ok ()
    ∧ load ⟨64, 63, none⟩ ⟨[], []⟩ []
      = .error (.malformedProgram (.tooBig 0 18446744073709551613)) :=
  ⟨rfl, rfl⟩

end State

end Polyglot.Machine
