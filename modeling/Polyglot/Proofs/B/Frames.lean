import Polyglot.Proofs.Assembly.Running
import Polyglot.Proofs.B.Emission
import Polyglot.Proofs.B.Semantics

/-!
# Frames on the stack

While a function runs, its frame is the memory from the stack pointer on. The frame is
*right* for the variables (`Frame`) if each of them that has a value is in its slot.

Code changes part of the frame and anything below it, where the frames of the functions
it calls are. So what code leaves alone is told for the memory from the stack pointer
on, except for a stretch of it (`Memory.Keeps`): from some temporary on for an
expression, everything but the return address for a statement, and nothing at all for a
call, as the caller sees it.
-/

namespace Polyglot.Machine

/-- Whether the bytes from `base` on are the same in two memories, except for those from
`low` to `high`. -/
structure Memory.Keeps (base low high : Nat) (m m' : Memory) : Prop where
  /-- The memories have the same size. -/
  size : m'.size = m.size
  /-- The bytes are the same. -/
  byte : ∀ a, base ≤ a → a < low ∨ high ≤ a → m'.byte a = m.byte a

namespace Memory

variable {base base' low low' high high' a : Nat} {m m' m'' : Memory} {bytes : List UInt8}

namespace Keeps

theorem refl : Keeps base low high m m := ⟨rfl, fun _ _ _ => rfl⟩

theorem of_eq (same : m' = m) : Keeps base low high m m' := same ▸ .refl

theorem trans (first : Keeps base low high m m') (second : Keeps base low high m' m'') :
    Keeps base low high m m'' :=
  ⟨second.size.trans first.size, fun a le outside =>
    (second.byte a le outside).trans (first.byte a le outside)⟩

/-- The stretch that may change may be taken to be larger. -/
theorem widen (h : Keeps base low high m m') (le : low' ≤ low) (le' : high ≤ high') :
    Keeps base low' high' m m' :=
  ⟨h.size, fun a above outside => h.byte a above (by omega)⟩

/-- Nothing changes above the stretch that may. -/
theorem above (h : Keeps base low high m m') (le : base ≤ base') (le' : high ≤ base') :
    Keeps base' low' high' m m' :=
  ⟨h.size, fun a above _ => h.byte a (by omega) (by omega)⟩

/-- What stands outside the stretch that may change stays. -/
theorem holds (h : Keeps base low high m m') (held : m.Holds a bytes) (above : base ≤ a)
    (outside : a + bytes.length ≤ low ∨ high ≤ a) : m'.Holds a bytes where
  fits := h.size ▸ held.fits
  byte_eq i lt := by
    rw [h.byte (a + i) (by omega) (by omega), held.byte_eq i lt]

end Keeps

/-- Writing in the stretch that may change. -/
theorem keeps_setBytes (le : low ≤ a) (le' : a + bytes.length ≤ high) :
    Keeps base low high m (m.setBytes a bytes) where
  size := size_setBytes ..
  byte i _ outside := by
    rw [byte_setBytes]
    split
    · rw [List.getElem?_eq_none (by omega), Option.getD_none]
    · rfl

end Memory

namespace View

/-- Whether a word stands at an address. -/
def Word (v : View) (address : Nat) (value : Int32) : Prop :=
  v.memory.Holds address (wordBytes value.toUInt32)

variable {v : View} {address : Nat} {value : Int32} {r : Register}

@[simp] theorem word_set {value' : Int32} :
    (v.set r value').Word address value ↔ v.Word address value := Iff.rfl

/-- A word that was written is there. -/
theorem word_store (fits : address + 4 ≤ v.memory.size) : (v.store address value).Word address value :=
  Memory.holds_setBytes fits

theorem keeps_store {base low high : Nat} (le : low ≤ address) (le' : address + 4 ≤ high) :
    Memory.Keeps base low high v.memory (v.store address value).memory :=
  Memory.keeps_setBytes le le'

end View

end Polyglot.Machine

namespace Polyglot.Assembly

/-- Whether some lines stand in a listing from a line on. -/
def Listing.Contains (l : Listing) (k : Nat) (code : List Line) : Prop :=
  ∀ i line, code[i]? = some line → l.lines[k + i]? = some line

namespace Listing

variable {l : Listing} {k : Nat} {line : Line} {code code' : List Line}

@[simp] theorem contains_nil : l.Contains k [] := fun _ _ there => by simp at there

@[simp] theorem contains_cons :
    l.Contains k (line :: code) ↔ l.lines[k]? = some line ∧ l.Contains (k + 1) code := by
  constructor
  · refine fun h => ⟨h 0 line rfl, fun i line there => ?_⟩
    rw [Nat.add_assoc, Nat.add_comm 1]
    exact h (i + 1) line there
  · rintro ⟨first, rest⟩ (_ | i) line' there
    · obtain rfl := Option.some.inj there
      exact first
    · rw [Nat.add_comm i, ← Nat.add_assoc]
      exact rest i line' there

@[simp] theorem contains_append :
    l.Contains k (code ++ code') ↔ l.Contains k code ∧ l.Contains (k + code.length) code' := by
  induction code generalizing k with
  | nil => simp
  | cons line code ih =>
    rw [List.cons_append, contains_cons, contains_cons, ih, List.length_cons, and_assoc,
      Nat.add_assoc, Nat.add_comm 1]

end Listing

end Polyglot.Assembly

namespace Polyglot.B

open Polyglot.Assembly (Line Listing Command)
open Polyglot.Machine (Register Setup View Memory)

/-- Whether the frame at an address is right for the values of the variables, `peak`
being how many temporaries it has. -/
structure Frame (x : Setup) (names : List String) (peak base : Nat) (env : Env) (v : View) :
    Prop where
  /-- The stack pointer is there. -/
  sp : (v.get .sp).toInt = base
  /-- It is not below the stack limit. -/
  low : x.config.stackLimit ≤ base
  /-- The frame ends in the memory. -/
  high : base + 4 * (1 + names.length + peak) ≤ x.config.memorySize
  /-- Variables with a value have a slot. -/
  mem : ∀ name value, env name = some value → name ∈ names
  /-- Their values are there. -/
  word : ∀ name value, env name = some value → v.Word (base + 4 * slotOf names name) value

/-- Whether the value of an expression is where it is said to be, in one of the slots up
to `last` if it is in a slot. -/
def Value.Denotes (base last : Nat) (v : View) (a : Int32) : Value → Prop
  | .slot n => n ≤ last ∧ v.Word (base + 4 * n) a
  | .int value => value = a
  | .constant _ => False

variable {x : Setup} {l : Listing} {names : List String} {peak base last low high k : Nat}
  {env : Env} {v v' : View} {a : Int32}

/-- A frame stays right as long as the slots of the variables are left alone. -/
theorem Frame.keep (h : Frame x names peak base env v) (sp : v'.get .sp = v.get .sp)
    (keeps : Memory.Keeps base low high v.memory v'.memory)
    (le : base + 4 * (1 + names.length) ≤ low) : Frame x names peak base env v' where
  sp := sp ▸ h.sp
  low := h.low
  high := h.high
  mem := h.mem
  word name value eq := by
    refine keeps.holds (h.word name value eq) (Nat.le_add_right _ _) (.inl ?_)
    have := slotOf_le (h.mem name value eq)
    show base + 4 * slotOf names name + 4 ≤ low
    omega

/-- A value stays where it is as long as the slots up to there are left alone. -/
theorem Value.Denotes.keep {value : Value} (h : value.Denotes base last v a)
    (keeps : Memory.Keeps base low high v.memory v'.memory) (le : base + 4 * (1 + last) ≤ low) :
    value.Denotes base last v' a := by
  cases value with
  | slot n =>
    obtain ⟨le', word⟩ := h
    refine ⟨le', keeps.holds word (Nat.le_add_right _ _) (.inl ?_)⟩
    show base + 4 * n + 4 ≤ low
    omega
  | int value => exact h
  | constant index => exact h

theorem Value.Denotes.mono {value : Value} {last' : Nat} (h : value.Denotes base last v a)
    (le : last ≤ last') : value.Denotes base last' v a := by
  cases value with
  | slot n => exact ⟨Nat.le_trans h.1 le, h.2⟩
  | int value => exact h
  | constant index => exact h

/-- A value is put into a register. -/
theorem Value.goes_load (assembled : l.assemble = .ok x.program) {value : Value} {r : Register}
    (sp : (v.get .sp).toInt = base) (there : l.lines[k]? = some (value.load r)) (ne : r ≠ .pc)
    (denotes : value.Denotes base last v a) :
    x.Goes 1 (l.before k) v (l.before (k + 1)) (v.set r a) := by
  cases value with
  | slot n =>
    have orders : l.Orders k (.load r .sp (4 * n)) := ⟨_, _, _, there, rfl⟩
    refine Listing.goes_load assembled orders ne (by decide) ?_ denotes.2
    rw [sp]
    omega
  | int value =>
    have orders : l.Orders k (.put r (.int value.toInt)) := ⟨_, _, _, there, rfl⟩
    obtain rfl : value = a := denotes
    have goes := Listing.goes_put_int (v := v) assembled orders ne
    rwa [Int32.ofInt_toInt] at goes
  | constant index => exact denotes.elim

/-- A register is put into a slot. -/
theorem goes_saveTo (assembled : l.assemble = .ok x.program) {n : Nat} {r : Register}
    (frame : Frame x names peak base env v) (there : l.lines[k]? = some (saveTo n r))
    (ne : r ≠ .pc) (le : n ≤ names.length + peak) :
    x.Goes 1 (l.before k) v (l.before (k + 1)) (v.store (base + 4 * n) (v.get r)) := by
  have orders : l.Orders k (.store r .sp (4 * n)) := ⟨_, _, _, there, rfl⟩
  have low := frame.low
  have high := frame.high
  refine Listing.goes_store assembled orders ne (by decide) ?_ (by omega) (by omega)
  rw [frame.sp]
  omega

end Polyglot.B
