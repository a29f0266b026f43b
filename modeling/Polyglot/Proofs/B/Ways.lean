import Mathlib.Data.Set.Insert
import Polyglot.Proofs.B.Expressions

/-!
# Ways through a call

What a call does is a way through the lines of its function (`Way`), from the label of the
function to the jump back. Where it goes is up to the numbers that are computed, so a way may
go on at any line that can come next: both after a jump on a condition, and after a call of
a function the line that comes back from it, for the lines of the function that is called
belong to another call.

A way remembers at which distances from the stack pointer the call has written. What has been
written on all ways is found by giving each label a set of distances that are written
wherever control comes to it (`Carries`). There is no need to say which lines go to a label, so
that code is put together from stretches.
-/

namespace Polyglot.B

open Polyglot.Assembly (Line Listing Command Operand)
open Polyglot.Machine (Register Syscall)

/-! ## What comes next -/

/-- Whether a command is never followed by the next line in the same call. A jump to the label
of a function is a call, and comes back. -/
def Ends : Command → Prop
  | .jump _ | .exit _ | .exitWith _ | .jumpTo (.offset _) => True
  | .jumpTo (.label name) => ∀ callee, name ≠ functionLabel callee
  | _ => False

/-- Whether a command may go to a label in the same call. -/
def Reaches : Command → String → Prop
  | .jumpTo (.label name), target => name = target ∧ ∀ callee, name ≠ functionLabel callee
  | .jumpToIf (.label name) _, target => name = target
  | _, _ => False

/-- The distances from the stack pointer at which a command writes. -/
def stored : Command → List Int
  | .store _ .sp distance | .storeInt _ .sp distance => [distance]
  | _ => []

/-- Whether there is a way through a call from one line to another one, with the distances at
which it has written. -/
inductive Way (l : Listing) (first : Nat) : Nat → List Int → Prop where
  /-- The call starts. -/
  | start : Way l first first []
  /-- A label does nothing. -/
  | label {k : Nat} {written : List Int} {name : String} :
    Way l first k written → l.Marks k name → Way l first (k + 1) written
  /-- The next line follows. -/
  | next {k : Nat} {written : List Int} {c : Command} :
    Way l first k written → l.Orders k c → ¬ Ends c → Way l first (k + 1) (stored c ++ written)
  /-- A label follows that a command goes to. -/
  | jump {k m : Nat} {written : List Int} {c : Command} {name : String} :
    Way l first k written → l.Orders k c → Reaches c name → l.Marks m name → Way l first m written

/-! ## What all ways have written -/

/-- What has been written after a command. After a command that is not followed by anything, that
is whatever one likes. -/
def leaves (c : Command) (written : Set Int) : Set Int :=
  {distance | distance ∈ stored c ∨ distance ∈ written ∨ Ends c}

/-- Whether all that a command reads next to the stack pointer has been written, and all that
should be at the labels it goes to. -/
structure Admits (marks : String → Set Int) (written : Set Int) (c : Command) : Prop where
  /-- What is read has been written. -/
  read : ∀ r distance, c = .load r .sp distance → distance ∈ written
  /-- What should be at a label has been written. -/
  marks : ∀ name, Reaches c name → marks name ⊆ written

/-- Whether code that starts with some distances written has others written at its end, where
those of the labels are given. -/
def Carries (marks : String → Set Int) : Set Int → List Line → Set Int → Prop
  | written, [], written' => written' ⊆ written
  | written, .label name _ :: code, written' =>
    marks name ⊆ written ∧ Carries marks (marks name) code written'
  | written, .instruction mnemonic operands place :: code, written' =>
    ∃ c, Command.ofLine mnemonic operands place = .ok c ∧ Admits marks written c
      ∧ Carries marks (leaves c written) code written'

section

variable {marks : String → Set Int} {written written' before after : Set Int} {c : Command}
  {code code' : List Line}

theorem subset_leaves : written ⊆ leaves c written := fun _ mem => .inr (.inl mem)

theorem leaves_mono (le : written ⊆ written') : leaves c written ⊆ leaves c written' :=
  fun _ mem => mem.imp_right (.imp_left (le ·))

theorem leaves_of_ends (ends : Ends c) : leaves c written = Set.univ :=
  Set.eq_univ_of_forall fun _ => .inr (.inr ends)

namespace Carries

/-- More may be written before code, and less asked for behind it. -/
theorem mono (h : Carries marks written code written') (le : written ⊆ before)
    (le' : after ⊆ written') : Carries marks before code after := by
  induction code generalizing written before with
  | nil => exact (le'.trans h).trans le
  | cons line code ih =>
    cases line with
    | label name place => exact ⟨h.1.trans le, ih h.2 subset_rfl⟩
    | instruction mnemonic operands place =>
      obtain ⟨c, checked, admits, rest⟩ := h
      exact ⟨c, checked, ⟨fun r distance eq => le (admits.read r distance eq),
        fun name reaches => (admits.marks name reaches).trans le⟩, ih rest (leaves_mono le)⟩

theorem append (h : Carries marks before code written) (h' : Carries marks written code' after) :
    Carries marks before (code ++ code') after := by
  induction code generalizing before with
  | nil => exact h'.mono h subset_rfl
  | cons line code ih =>
    cases line with
    | label name place => exact ⟨h.1, ih h.2⟩
    | instruction mnemonic operands place =>
      obtain ⟨c, checked, admits, rest⟩ := h
      exact ⟨c, checked, admits, ih rest⟩

/-- One instruction. -/
theorem instruction {mnemonic : String} {operands : List Operand}
    (checked : Command.ofLine mnemonic operands .start = .ok c) (admits : Admits marks written c)
    (le : written' ⊆ leaves c written) : Carries marks written [line mnemonic operands] written' :=
  ⟨c, checked, admits, le⟩

/-- A label. -/
theorem label {name : String} (le : marks name ⊆ written) (le' : written' ⊆ marks name) :
    Carries marks written [place name] written' := ⟨le, le'⟩

/-- Something has been written before any rest of the code. -/
theorem drop (h : Carries marks before code after) (k : Nat) :
    ∃ written, Carries marks written (code.drop k) after := by
  induction code generalizing before k with
  | nil => exact ⟨before, by rwa [List.drop_nil]⟩
  | cons line code ih =>
    cases k with
    | zero => exact ⟨before, h⟩
    | succ k =>
      cases line with
      | label name place => exact ih h.2 k
      | instruction mnemonic operands place =>
        obtain ⟨c, -, -, rest⟩ := h
        exact ih rest k

/-- What is written at a label is all that the code behind it needs. -/
theorem drop_of_marks {l : Listing} {k : Nat} {name : String} (h : Carries marks before l.lines after)
    (there : l.Marks k name) : Carries marks (marks name) (l.lines.drop k) after := by
  obtain ⟨written, rest⟩ := h.drop k
  obtain ⟨place, there⟩ := there
  rw [List.drop_eq_getElem?_toList_append, there] at rest ⊢
  exact ⟨subset_rfl, rest.2⟩

end Carries

/-- **What has been written on a way** from a label is enough for the code from where it has
come to, together with what the label grants. -/
theorem Way.carries {l : Listing} {first k : Nat} {name : String} {distances : List Int}
    (whole : Carries marks before l.lines after) (starts : l.Marks first name)
    (way : Way l first k distances) :
    ∃ written, Carries marks written (l.lines.drop k) after
      ∧ ∀ distance ∈ written, distance ∈ distances ∨ distance ∈ marks name := by
  induction way with
  | start => exact ⟨_, whole.drop_of_marks starts, fun _ => .inr⟩
  | label way there ih =>
    obtain ⟨written, rest, known⟩ := ih
    obtain ⟨place, there⟩ := there
    rw [List.drop_eq_getElem?_toList_append, there] at rest
    exact ⟨_, rest.2, fun distance mem => known distance (rest.1 mem)⟩
  | next way orders stays ih =>
    obtain ⟨written, rest, known⟩ := ih
    obtain ⟨mnemonic, operands, place, there, checked⟩ := orders
    rw [List.drop_eq_getElem?_toList_append, there] at rest
    obtain ⟨c, checked', -, rest⟩ := rest
    obtain rfl := Except.ok.inj (checked.symm.trans checked')
    refine ⟨_, rest, fun distance mem => ?_⟩
    rcases mem with mem | mem | ends
    · exact .inl (List.mem_append_left _ mem)
    · exact (known distance mem).imp_left (List.mem_append_right _)
    · exact absurd ends stays
  | jump way orders reaches there ih =>
    obtain ⟨written, rest, known⟩ := ih
    obtain ⟨mnemonic, operands, place, found, checked⟩ := orders
    rw [List.drop_eq_getElem?_toList_append, found] at rest
    obtain ⟨c, checked', admits, -⟩ := rest
    obtain rfl := Except.ok.inj (checked.symm.trans checked')
    exact ⟨_, whole.drop_of_marks there, fun distance mem =>
      known distance (admits.marks _ reaches mem)⟩

/-- **What is read on a way** from a label next to the stack pointer has been written on the
way, or the label grants it. -/
theorem Way.mem_of_load {l : Listing} {first k : Nat} {name : String} {distances : List Int}
    {r : Register} {distance : Int} (whole : Carries marks before l.lines after)
    (starts : l.Marks first name) (way : Way l first k distances)
    (orders : l.Orders k (.load r .sp distance)) : distance ∈ distances ∨ distance ∈ marks name := by
  obtain ⟨written, rest, known⟩ := way.carries whole starts
  obtain ⟨mnemonic, operands, place, found, checked⟩ := orders
  rw [List.drop_eq_getElem?_toList_append, found] at rest
  obtain ⟨c, checked', admits, -⟩ := rest
  obtain rfl := Except.ok.inj (checked.symm.trans checked')
  exact known distance (admits.read r distance rfl)

end

end Polyglot.B
