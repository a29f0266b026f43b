import Polyglot.Proofs.Assembly.Layout
import Polyglot.Proofs.Machine.Execution

/-!
# References point where they should

The code of a program never says where anything is: it says how far away it is. This
module shows that the distances are the right ones once the program is loaded. The
places of the lines are those of `Listing.before`; a loaded program has the word with
the number `n` at `Program.address p n`; and the sum of the program counter and of a
distance is taken in 32 bits, which is no restriction for addresses in a memory.

The data section ends where the code starts, and it was filled up with zeros to whole
words before. So a text is found by going back from the code by the size of the whole
section, *with* the zeros, and forward again by what comes before the text.
-/

namespace Polyglot.Assembly

open Polyglot.Source
open Polyglot.Machine (Register Instruction Program Config State Memory)

/-! ## The data section -/

/-- The words of bytes are the bytes, filled up with zeros. -/
theorem flatMap_wordsOfBytes (bytes : List UInt8) :
    ∃ zeros, (Program.wordsOfBytes bytes).flatMap Machine.wordBytes = bytes ++ zeros := by
  fun_induction Program.wordsOfBytes bytes with
  | case1 => exact ⟨[], rfl⟩
  | case2 b₀ => exact ⟨[0, 0, 0], by simp [Machine.wordBytes_wordOfBytes]⟩
  | case3 b₀ b₁ => exact ⟨[0, 0], by simp [Machine.wordBytes_wordOfBytes]⟩
  | case4 b₀ b₁ b₂ => exact ⟨[0], by simp [Machine.wordBytes_wordOfBytes]⟩
  | case5 b₀ b₁ b₂ b₃ rest ih =>
    obtain ⟨zeros, eq⟩ := ih
    exact ⟨zeros, by simp [Machine.wordBytes_wordOfBytes, eq]⟩

/-- The number of words that bytes make. -/
theorem length_wordsOfBytes (bytes : List UInt8) :
    (Program.wordsOfBytes bytes).length = (bytes.length + 3) / 4 := by
  fun_induction Program.wordsOfBytes bytes with
  | case1 | case2 | case3 | case4 => simp
  | case5 b₀ b₁ b₂ b₃ rest ih =>
    simp only [List.length_cons, ih]
    omega

/-- Where a text stands among the bytes of the data section. -/
theorem constantStart?_eq_some {constants : List String} {n start : Nat}
    (found : constantStart? constants n = some start) :
    ∃ text, constants[n]? = some text
      ∧ start + (constantBytes text).length ≤ (dataBytes constants).length
      ∧ ((dataBytes constants).drop start).take (constantBytes text).length
          = constantBytes text := by
  unfold constantStart? at found
  split at found
  · rename_i lt
    obtain rfl := Option.some.inj found
    have eq : dataBytes constants = dataBytes (constants.take n)
        ++ (constantBytes constants[n] ++ dataBytes (constants.drop (n + 1))) := by
      simp only [dataBytes]
      rw [← List.flatMap_cons, ← List.flatMap_append, ← List.drop_eq_getElem_cons lt,
        List.take_append_drop]
    refine ⟨constants[n], List.getElem?_eq_getElem lt, ?_, ?_⟩
    · rw [eq, List.length_append, List.length_append]
      omega
    · rw [eq, List.drop_left, List.take_left]
  · cases found

section

variable {l : Listing} {p : Program}

/-- The data section is as large as the references to it take it to be. -/
theorem dataSize_eq (assembled : l.assemble = .ok p) : p.dataSize = dataSize l.constants := by
  obtain ⟨-, -, -, -, data⟩ := Listing.assemble_eq_ok assembled
  rw [Program.dataSize, data, length_wordsOfBytes, dataSize]

/-- A memory with the image of a program has its texts in it. -/
theorem holds_constant (assembled : l.assemble = .ok p) {m : Memory}
    (holds : m.Holds Machine.loadAddress p.image) {n start : Nat}
    (found : constantStart? l.constants n = some start) :
    ∃ text, l.constants[n]? = some text
      ∧ m.Holds (Machine.loadAddress + start) (constantBytes text) := by
  obtain ⟨-, -, -, -, data⟩ := Listing.assemble_eq_ok assembled
  obtain ⟨text, at_n, le, eq⟩ := constantStart?_eq_some found
  obtain ⟨zeros, bytes⟩ := flatMap_wordsOfBytes (dataBytes l.constants)
  have image : p.image
      = dataBytes l.constants ++ (zeros ++ p.code.flatMap Machine.wordBytes) := by
    rw [Program.image, data, List.flatMap_append, bytes, List.append_assoc]
  refine ⟨text, at_n, ?_⟩
  have held := holds.drop_take start (constantBytes text).length (by
    rw [image, List.length_append]; omega)
  rwa [image, List.drop_append_of_le_length (by omega), List.take_append_of_le_length (by
    rw [List.length_drop]; omega), eq] at held

end

/-! ## References -/

/-- A machine that is about to carry out the instruction of the line with a number. -/
structure Reaches (l : Listing) (p : Program) (s : State) (k : Nat) : Prop where
  /-- The program is where it was loaded. -/
  carries : s.Carries p
  /-- There are steps left. -/
  unlimited : s.exhausted? = none
  /-- The program counter is the address of the words of the line. -/
  pc_eq : s.pc.toInt = p.address (l.before k)

/-- Whether the references of a listing are right in its program, with `start` being the
machine that the program was just loaded in. -/
structure Linked (l : Listing) (p : Program) (start : State) : Prop where
  /-- There are as many words of code as the first pass has counted. -/
  length_code : p.code.length = l.counted l.lines.length
  /-- The words of each line start where the first pass has put it. -/
  before_eq : ∀ k, l.before k = l.counted k
  /-- The words of an instruction are those of what it is lowered to. -/
  has : ∀ k mnemonic operands place,
    l.lines[k]? = some (.instruction mnemonic operands place) →
    ∃ command instructions, Command.ofLine mnemonic operands place = .ok command
      ∧ l.scope.lower (l.counted k) place command = .ok instructions
      ∧ instructions.length = command.size
      ∧ ∀ j i, instructions[j]? = some i → p.Has (l.counted k + j) i
  /-- A jump to a label goes there. -/
  jumpv : ∀ s k m name span place, Reaches l p s k →
    l.lines[m]? = some (.label name place) →
    l.lines[k]? = some (.instruction "jumpv" [.label name] span) →
    s.step.1.pc.toInt = p.address (l.before m)
  /-- So does a jump under a condition, if it is taken. -/
  jumpifv : ∀ s k m name span place condition, Reaches l p s k →
    l.lines[m]? = some (.label name place) →
    l.lines[k]? = some (.instruction "jumpifv" [.label name, .register condition] span) →
    s.readRegister condition ≠ s.readRegister .zero →
    s.step.1.pc.toInt = p.address (l.before m)
  /-- The address of a label is put into a register. -/
  setv_label : ∀ s k m name span place d, Reaches l p s k →
    l.lines[m]? = some (.label name place) →
    l.lines[k]? = some (.instruction "setv" [.register d, .label name] span) →
    d ≠ .zero →
    (s.step.1.readRegister d).toInt = p.address (l.before m)
  /-- The address of a text is put into a register. -/
  setv_constant : ∀ s k n span d, Reaches l p s k →
    l.lines[k]? = some (.instruction "setv" [.register d, .constant n] span) →
    d ≠ .zero →
    ∃ text address, l.constants[n]? = some text
      ∧ (s.step.1.readRegister d).toInt = (address : Nat)
      ∧ start.memory.Holds address (constantBytes text)

section

variable {l : Listing} {p : Program} {config : Config} {input : List UInt8} {start s : State}
variable {k : Nat}

/-- Something is made of each line. -/
theorem Listing.length_emitted (l : Listing) : l.emitted.length = l.lines.length := by
  have (s : Scope) (site : Nat) (lines : List Line) : (s.emit site lines).length = lines.length := by
    induction lines generalizing site with
    | nil => rfl
    | cons line lines ih => simp [Scope.emit, ih]
  exact this ..

/-- The addresses of a loaded program are positive 32-bit numbers. -/
theorem address_lt (loaded : State.load config p input = .ok start) {n : Nat}
    (le : n ≤ p.code.length) : p.address n < 0x80000000 := by
  obtain ⟨valid, fits, -⟩ := State.load_eq_ok loaded
  obtain ⟨size, -, -⟩ := State.memorySize_lt_of_validate valid
  have := p.entryPoint_add
  unfold Config.stackLimit at fits
  unfold Program.address
  omega

/-- The distance to a text goes back from the end of the data section. -/
theorem constantOffset_eq_ok {scope : Scope} {n site : Nat} {span : Span} {distance : Int}
    (found : scope.constantOffset n site span = .ok distance) :
    ∃ place, constantStart? scope.constants n = some place
      ∧ distance = -(4 * (site : Int) + ((dataSize scope.constants : Int) - place)) := by
  unfold Scope.constantOffset at found
  split at found
  · rename_i place at_n
    exact ⟨place, at_n, (Except.ok.inj found).symm⟩
  · cases found

namespace Reaches

/-- The machine is going. -/
theorem going (h : Reaches l p s k) : s.pc ≠ 0 := by
  intro zero
  have pc_eq := h.pc_eq
  rw [zero] at pc_eq
  unfold Program.address Program.entryPoint Machine.loadAddress at pc_eq
  have : (0 : Int32).toInt = 0 := rfl
  omega

/-- The machine fetches what the line was lowered to, if that is one instruction. -/
theorem fetch (h : Reaches l p s k) {i : Instruction} (has : p.Has (l.before k + 0) i) :
    s.fetch = .ok i :=
  h.carries.fetch has h.pc_eq

/-- The distance to a label leads to the label. -/
theorem add_label (h : Reaches l p s k) (assembled : l.assemble = .ok p)
    (loaded : State.load config p input = .ok start) (m : Nat) :
    (s.pc + Int32.ofInt (((l.before m : Int) - l.before k) * 4)).toInt
      = p.address (l.before m) := by
  have pc_eq := h.pc_eq
  have lt := address_lt loaded (l.before_le assembled m)
  unfold Program.address at pc_eq lt ⊢
  rw [Machine.toInt_add_ofInt] <;> omega

/-- The distance to a text leads to the text. -/
theorem add_constant (h : Reaches l p s k) (assembled : l.assemble = .ok p)
    (loaded : State.load config p input = .ok start) {n place : Nat}
    (found : constantStart? l.constants n = some place) :
    (s.pc + Int32.ofInt (-(4 * (l.before k : Int) + ((dataSize l.constants : Int) - place)))).toInt
      = (Machine.loadAddress + place : Nat) := by
  obtain ⟨text, -, le, -⟩ := constantStart?_eq_some found
  have pc_eq := h.pc_eq
  have lt := address_lt loaded (Nat.zero_le p.code.length)
  have size : (dataBytes l.constants).length ≤ dataSize l.constants := by
    unfold dataSize
    omega
  unfold Program.address Program.entryPoint at pc_eq lt
  rw [dataSize_eq assembled] at pc_eq lt
  rw [Machine.toInt_add_ofInt] <;> omega

/-- A command that is lowered to one instruction is carried out by a step. -/
theorem step (h : Reaches l p s k) {i : Instruction} (has : p.Has (l.before k + 0) i)
    {s' : State} (executed : s.ready.execute i = (s', .ok ())) : s.step.1 = s'.moved :=
  State.step_fst_of_fetch h.going h.unlimited (h.fetch has) executed

end Reaches

/-- The distance to a label, in a word. -/
theorem offset_of_label (assembled : l.assemble = .ok p) {m site : Nat} {name : String}
    {span place : Span} {offset : Int32} (there : l.lines[m]? = some (.label name place))
    (found : (do (wordOf (← l.scope.labelOffset name site span)).mapError (.encoding site span))
      = Except.ok offset) :
    offset = Int32.ofInt (((l.before m : Int) - site) * 4) := by
  rw [Scope.labelOffset, Listing.lookup_label assembled there] at found
  exact (wordOf_eq_ok (Except.mapError_eq_ok.1 found)).2

/-- **The references of a listing are right** in every program that is made of it, in
every machine that the program can be loaded in. -/
theorem Listing.linked (assembled : l.assemble = .ok p)
    (loaded : State.load config p input = .ok start) : Linked l p start where
  length_code := by
    rw [← before_eq_counted assembled, code_eq assembled, before, List.take_of_length_le]
    exact length_emitted l ▸ Nat.le_refl _
  before_eq := before_eq_counted assembled
  has k mnemonic operands place there := by
    obtain ⟨command, instructions, checked, lowered, -, has⟩ := has_of_line assembled there
    rw [← before_eq_counted assembled]
    exact ⟨command, instructions, checked, lowered, Scope.lower_length lowered, has⟩
  -- a jump counts its distance from its own instruction
  jumpv s k m name span place reaches label line := by
    obtain ⟨command, instructions, checked, lowered, -, has⟩ := has_of_line assembled line
    obtain rfl : .jumpTo (.label name) = command := Except.ok.inj checked
    obtain ⟨offset, found, eq⟩ := Except.bind_eq_ok.1 lowered
    obtain rfl := Except.pure_eq_ok.1 eq
    obtain rfl := offset_of_label assembled label found
    rw [reaches.step (has 0 _ rfl) rfl]
    exact reaches.add_label assembled loaded m
  jumpifv s k m name span place condition reaches label line taken := by
    obtain ⟨command, instructions, checked, lowered, -, has⟩ := has_of_line assembled line
    obtain rfl : .jumpToIf (.label name) condition = command := Except.ok.inj checked
    obtain ⟨offset, found, eq⟩ := Except.bind_eq_ok.1 lowered
    obtain rfl := Except.pure_eq_ok.1 eq
    obtain rfl := offset_of_label assembled label found
    have executed := State.execute_bne (s := s.ready) taken
      (Int32.ofInt (((l.before m : Int) - l.before k) * 4))
    rw [reaches.step (has 0 _ rfl) executed]
    exact reaches.add_label assembled loaded m
  setv_label s k m name span place d reaches label line nonzero := by
    obtain ⟨command, instructions, checked, lowered, -, has⟩ := has_of_line assembled line
    obtain rfl : .put d (.label name) = command := Except.ok.inj checked
    obtain ⟨distance, found, lowered⟩ := Except.bind_eq_ok.1 lowered
    obtain ⟨offset, found', eq⟩ := Except.bind_eq_ok.1 lowered
    obtain rfl := Except.pure_eq_ok.1 eq
    obtain rfl := offset_of_label assembled label (Except.bind_eq_ok.2 ⟨distance, found, found'⟩)
    rw [reaches.step (has 0 _ rfl) rfl, State.readRegister_moved_writeRegister nonzero]
    exact reaches.add_label assembled loaded m
  setv_constant s k n span d reaches line nonzero := by
    obtain ⟨command, instructions, checked, lowered, -, has⟩ := has_of_line assembled line
    obtain rfl : .put d (.constant n) = command := Except.ok.inj checked
    obtain ⟨distance, found, lowered⟩ := Except.bind_eq_ok.1 lowered
    obtain ⟨offset, found', eq⟩ := Except.bind_eq_ok.1 lowered
    obtain rfl := Except.pure_eq_ok.1 eq
    obtain ⟨-, rfl⟩ := wordOf_eq_ok (Except.mapError_eq_ok.1 found')
    obtain ⟨place, start_eq, rfl⟩ := constantOffset_eq_ok found
    obtain ⟨text, at_n, holds⟩ := holds_constant assembled (State.carries_of_load loaded) start_eq
    refine ⟨text, _, at_n, ?_, holds⟩
    rw [reaches.step (has 0 _ rfl) rfl, State.readRegister_moved_writeRegister nonzero]
    exact reaches.add_constant assembled loaded start_eq

end

/-- A listing that puts the address of a label into register zero. -/
def zeroListing : Listing where
  constants := ["a"]
  lines := [.instruction "setv" [.register .zero, .label "end"] .start, .label "end" .start,
    .instruction "exitv" [.int 0] .start]

theorem zeroListing_loads : ∃ p start, zeroListing.assemble = .ok p
    ∧ State.load {} p [] = .ok start := ⟨_, _, rfl, rfl⟩

/-- The listing has a program that can be loaded, so its references are right. -/
theorem linked_zeroListing : ∃ p start, zeroListing.assemble = .ok p
    ∧ State.load {} p [] = .ok start ∧ Linked zeroListing p start := by
  obtain ⟨p, start, assembled, loaded⟩ := zeroListing_loads
  exact ⟨p, start, assembled, loaded, Listing.linked assembled loaded⟩

/-- An address that is put into register zero is dropped, so that register does not have
it. -/
theorem setv_label_zero : ∃ p start, zeroListing.assemble = .ok p
    ∧ State.load {} p [] = .ok start ∧ Reaches zeroListing p start 0
    ∧ zeroListing.lines[0]? = some (.instruction "setv" [.register .zero, .label "end"] .start)
    ∧ zeroListing.lines[1]? = some (.label "end" .start)
    ∧ (start.step.1.readRegister .zero).toInt ≠ p.address (zeroListing.before 1) := by
  obtain ⟨p, start, assembled, loaded⟩ := zeroListing_loads
  have reaches : Reaches zeroListing p start 0 := by
    obtain ⟨-, -, eq⟩ := State.load_eq_ok loaded
    refine ⟨State.carries_of_load loaded, by rw [eq]; rfl, ?_⟩
    have lt := address_lt loaded (Nat.zero_le _)
    rw [eq]
    exact Int32.toInt_ofNat_of_lt lt
  refine ⟨p, start, assembled, loaded, reaches, rfl, rfl, ?_⟩
  obtain ⟨command, instructions, checked, lowered, -, has⟩ :=
    Listing.has_of_line assembled (show zeroListing.lines[0]? = some _ from rfl)
  obtain rfl : .put .zero (.label "end") = command := Except.ok.inj checked
  obtain ⟨distance, found, lowered⟩ := Except.bind_eq_ok.1 lowered
  obtain ⟨offset, found', eq⟩ := Except.bind_eq_ok.1 lowered
  obtain rfl := Except.pure_eq_ok.1 eq
  rw [reaches.step (has 0 _ rfl) rfl]
  have zero : start.registers.get .zero = 0 := by
    obtain ⟨-, -, eq⟩ := State.load_eq_ok loaded
    rw [eq]
    exact (Machine.Registers.get_set_of_ne (by decide)).trans (Machine.Registers.get_zeros _)
  show (start.registers.get .zero).toInt ≠ _
  rw [zero]
  show (0 : Int) ≠ _
  unfold Program.address Program.entryPoint Machine.loadAddress
  omega

end Polyglot.Assembly
