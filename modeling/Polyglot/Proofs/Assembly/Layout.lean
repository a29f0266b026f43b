import Mathlib.Algebra.GroupWithZero.Nat
import Polyglot.Assembly.Assemble
import Polyglot.Proofs.Machine.Contents

/-!
# Where the words of a listing stand

The two passes of the assembler count separately: the first one adds up the sizes
of commands, the second one the words it has made. This module shows that they
count the same, line by line.

What the second pass makes of each line is a list of its own (`Scope.emit`), so
the words before a line are those of the lines before it, and there is one number
to compare: how many words come before the line with a number, as the first pass
counts them (`Listing.counted`) and as the second one makes them
(`Listing.before`). They are equal for every line (`Listing.before_eq_counted`), so
a label, which the first pass has put down with its own count, stands for the place
in the code that it should.
-/

namespace Polyglot.Assembly

open Polyglot.Source
open Polyglot.Machine (Register Instruction Program)

/-! ## What the passes count -/

/-- How many words the first pass counts for a line. -/
def Line.size : Line → Nat
  | .label .. => 0
  | .instruction mnemonic operands span =>
    match Command.ofLine mnemonic operands span with
    | .ok command => command.size
    | .error _ => 0

/-- How many words the first pass counts for the lines before the one with the number
`k`. -/
def sizeBefore (lines : List Line) (k : Nat) : Nat := ((lines.take k).map Line.size).sum

@[simp] theorem sizeBefore_zero (lines : List Line) : sizeBefore lines 0 = 0 := rfl

@[simp] theorem sizeBefore_nil (k : Nat) : sizeBefore [] k = 0 := by simp [sizeBefore]

@[simp] theorem sizeBefore_cons_succ (line : Line) (lines : List Line) (k : Nat) :
    sizeBefore (line :: lines) (k + 1) = line.size + sizeBefore lines k := by
  simp [sizeBefore]

namespace Scope

/-- The words of a line at the instruction with the number `site`. -/
def wordsAt (s : Scope) (site : Nat) : Line → List UInt32
  | .label .. => []
  | .instruction mnemonic operands span =>
    let words := do
      let command ← Command.ofLine mnemonic operands span
      encodeFrom span site (← s.lower site span command)
    words.toOption.getD []

/-- Whether the second pass makes these words of a line that stands at the instruction
with the number `site`. -/
def Makes (s : Scope) (site : Nat) : Line → List UInt32 → Prop
  | .label .., words => words = []
  | .instruction mnemonic operands span, words =>
    ∃ command instructions, Command.ofLine mnemonic operands span = .ok command
      ∧ s.lower site span command = .ok instructions
      ∧ encodeFrom span site instructions = .ok words

/-- The words of each of some lines, the first of which stands at the instruction
with the number `site`. -/
def emit (s : Scope) (site : Nat) : List Line → List (List UInt32)
  | [] => []
  | line :: lines =>
    let words := s.wordsAt site line
    words :: s.emit (site + words.length) lines

end Scope

namespace Listing

/-- What the references of a listing are resolved with. -/
def scope (l : Listing) : Scope :=
  ⟨l.constants, ((outline l.lines).toOption.map Outline.labels).getD []⟩

/-- The words of each line. -/
def emitted (l : Listing) : List (List UInt32) := l.scope.emit 0 l.lines

/-- How many words are made of the lines before the line with a number. -/
def before (l : Listing) (k : Nat) : Nat := (l.emitted.take k).flatten.length

/-- How many words the first pass counts for the lines before the line with a
number. -/
def counted (l : Listing) (k : Nat) : Nat := sizeBefore l.lines k

end Listing

/-! ## Commands have the size they are counted with -/

variable {s : Scope} {site : Nat} {span : Span}

theorem encodeFrom_length {instructions : List Instruction} {words : List UInt32}
    (encoded : encodeFrom span site instructions = .ok words) :
    words.length = instructions.length := by
  induction instructions generalizing site words with
  | nil => rw [← Except.pure_eq_ok.1 encoded]; rfl
  | cons i is ih =>
    obtain ⟨word, -, encoded⟩ := Except.bind_eq_ok.1 encoded
    obtain ⟨rest, encoded, eq⟩ := Except.bind_eq_ok.1 encoded
    rw [← Except.pure_eq_ok.1 eq, List.length_cons, List.length_cons, ih encoded]

/-- Each word is that of its instruction. -/
theorem encodeFrom_at {instructions : List Instruction} {words : List UInt32}
    (encoded : encodeFrom span site instructions = .ok words) {j : Nat} {i : Instruction}
    (there : instructions[j]? = some i) :
    ∃ word, words[j]? = some word ∧ i.encode = .ok word := by
  induction instructions generalizing site words j with
  | nil => simp at there
  | cons i' is ih =>
    obtain ⟨word, first, encoded⟩ := Except.bind_eq_ok.1 encoded
    obtain ⟨rest, others, eq⟩ := Except.bind_eq_ok.1 encoded
    obtain rfl := Except.pure_eq_ok.1 eq
    cases j with
    | zero =>
      obtain rfl : i' = i := by simpa using there
      exact ⟨word, rfl, Except.mapError_eq_ok.1 first⟩
    | succ j => simpa using ih others (by simpa using there)

/-- What stands in one of some lists stands in all of them together, behind the lists
before that one. -/
theorem flatten_at {α : Type} {lists : List (List α)} {k j : Nat} {list : List α} {a : α}
    (there : lists[k]? = some list) (within : list[j]? = some a) :
    lists.flatten[(lists.take k).flatten.length + j]? = some a := by
  obtain ⟨lt, rfl⟩ := List.getElem?_eq_some_iff.1 there
  obtain ⟨lt', rfl⟩ := List.getElem?_eq_some_iff.1 within
  have eq : lists.flatten = (lists.take k).flatten ++ (lists[k] ++ (lists.drop (k + 1)).flatten) := by
    rw [← List.flatten_cons, ← List.flatten_append, ← List.drop_eq_getElem_cons lt,
      List.take_append_drop]
  rw [eq, List.getElem?_append_right (Nat.le_add_right _ _), Nat.add_sub_cancel_left,
    List.getElem?_append_left lt', List.getElem?_eq_getElem]

/-- A command is lowered to as many instructions as its size says. -/
theorem Scope.lower_length {command : Command} {instructions : List Instruction}
    (lowered : s.lower site span command = .ok instructions) :
    instructions.length = command.size := by
  -- a negated operation takes a second instruction, which compares its result with zero
  have turned (o : Operation) (dst : Register) (first : Instruction) :
      (first :: if o.negated then [Instruction.immediate .eq dst dst 0] else []).length
        = if o.negated then 2 else 1 := by
    cases o.negated <;> rfl
  cases command with
  | compute o dst left right => rw [← Except.ok.inj lowered]; exact turned ..
  | computeWith o dst left right =>
    obtain ⟨word, -, eq⟩ := Except.bind_eq_ok.1 lowered
    rw [← Except.pure_eq_ok.1 eq]
    exact turned ..
  | isZero | copy | jump | jumpIf | sys | exit => rw [← Except.ok.inj lowered]; rfl
  | load | store | jumpTo | jumpToIf | sysOf | exitWith =>
    obtain ⟨word, -, eq⟩ := Except.bind_eq_ok.1 lowered
    rw [← Except.pure_eq_ok.1 eq]
    rfl
  | storeInt value base offset =>
    obtain ⟨word, -, lowered⟩ := Except.bind_eq_ok.1 lowered
    obtain ⟨word', -, eq⟩ := Except.bind_eq_ok.1 lowered
    rw [← Except.pure_eq_ok.1 eq]
    rfl
  | put dst source =>
    cases source with
    | int value =>
      obtain ⟨word, -, eq⟩ := Except.bind_eq_ok.1 lowered
      rw [← Except.pure_eq_ok.1 eq]
      rfl
    | label | constant =>
      obtain ⟨offset, -, lowered⟩ := Except.bind_eq_ok.1 lowered
      obtain ⟨word, -, eq⟩ := Except.bind_eq_ok.1 lowered
      rw [← Except.pure_eq_ok.1 eq]
      rfl

/-! ## Words -/

theorem wordOf_eq_ok {value : Int} {word : Int32} (done : wordOf value = .ok word) :
    (-0x80000000 ≤ value ∧ value < 0x80000000) ∧ word = Int32.ofInt value := by
  unfold wordOf at done
  split at done
  · rename_i bounds
    exact ⟨bounds, (Except.ok.inj done).symm⟩
  · cases done

/-- A word that was made of a number has that number. -/
theorem toInt_of_wordOf {value : Int} {word : Int32} (done : wordOf value = .ok word) :
    word.toInt = value := by
  obtain ⟨⟨lower, upper⟩, rfl⟩ := wordOf_eq_ok done
  rw [Int32.toInt_ofInt]
  exact Int.bmod_eq_of_le lower upper

/-! ## What the first pass knows of labels -/

variable {labels : List (String × Nat)} {lines : List Line} {found : Outline}

/-- Labels that were put down stay where they are. -/
theorem lookup_of_outlineFrom (outlined : outlineFrom labels site lines = .ok found)
    {name : String} {n : Nat} (there : labels.lookup name = some n) :
    found.labels.lookup name = some n := by
  induction lines generalizing labels site found with
  | nil => rwa [← Except.ok.inj outlined]
  | cons line lines ih =>
    cases line with
    | label other span =>
      unfold outlineFrom at outlined
      split at outlined
      · cases outlined
      · refine ih outlined ?_
        rw [List.lookup_append, there, Option.some_or]
    | instruction mnemonic operands span =>
      obtain ⟨command, -, outlined⟩ := Except.bind_eq_ok.1 outlined
      obtain ⟨rest, outlined, eq⟩ := Except.bind_eq_ok.1 outlined
      rw [← Except.pure_eq_ok.1 eq]
      show rest.labels.lookup name = _
      exact ih outlined there

/-- **A label is put down with the count of the lines before it.** -/
theorem lookup_of_label (outlined : outlineFrom labels site lines = .ok found) {m : Nat}
    {name : String} {place : Span} (there : lines[m]? = some (.label name place)) :
    found.labels.lookup name = some (site + sizeBefore lines m) := by
  induction lines generalizing labels site found m with
  | nil => simp at there
  | cons line lines ih =>
    cases line with
    | label other span =>
      unfold outlineFrom at outlined
      split at outlined
      · cases outlined
      · rename_i fresh
        cases m with
        | zero =>
          obtain ⟨rfl, rfl⟩ : other = name ∧ span = place := by simpa using there
          refine lookup_of_outlineFrom outlined ?_
          rw [List.lookup_append, Option.not_isSome_iff_eq_none.1 fresh]
          simp
        | succ m =>
          rw [ih outlined (by simpa using there), sizeBefore_cons_succ]
          simp [Line.size]
    | instruction mnemonic operands span =>
      obtain ⟨command, checked, outlined⟩ := Except.bind_eq_ok.1 outlined
      obtain ⟨rest, outlined, eq⟩ := Except.bind_eq_ok.1 outlined
      rw [← Except.pure_eq_ok.1 eq]
      cases m with
      | zero => simp at there
      | succ m =>
        show rest.labels.lookup name = _
        rw [ih outlined (by simpa using there), sizeBefore_cons_succ, Line.size, checked,
          Nat.add_assoc]

/-! ## The second pass follows the first -/

variable {code : List UInt32}

/-- What the second pass makes of the commands that the first one has found is what it
makes of each line, and it is as long as the first one has counted. -/
theorem emit_of_passes (outlined : outlineFrom labels site lines = .ok found)
    (generated : generateFrom s site found.commands = .ok code) :
    code = (s.emit site lines).flatten
      ∧ (∀ k, ((s.emit site lines).take k).flatten.length = sizeBefore lines k)
      ∧ ∀ k line, lines[k]? = some line →
        ∃ words, (s.emit site lines)[k]? = some words
          ∧ s.Makes (site + sizeBefore lines k) line words := by
  induction lines generalizing labels site found code with
  | nil =>
    rw [← Except.ok.inj outlined] at generated
    rw [← Except.ok.inj generated]
    exact ⟨rfl, by simp [Scope.emit], by simp⟩
  | cons line lines ih =>
    cases line with
    | label name span =>
      -- a label takes no room, so all places behind it stay
      unfold outlineFrom at outlined
      split at outlined
      · cases outlined
      · obtain ⟨eq, length, makes⟩ := ih outlined generated
        refine ⟨by simpa [Scope.emit, Scope.wordsAt] using eq, fun k => ?_, fun k line there => ?_⟩
        · cases k with
          | zero => rfl
          | succ k => simpa [Scope.emit, Scope.wordsAt, Line.size] using length k
        · cases k with
          | zero =>
            obtain rfl := Option.some.inj there
            exact ⟨[], rfl, rfl⟩
          | succ k => simpa [Scope.emit, Scope.wordsAt, Line.size] using makes k line there
    | instruction mnemonic operands span =>
      obtain ⟨command, checked, outlined⟩ := Except.bind_eq_ok.1 outlined
      obtain ⟨rest, outlinedRest, eq⟩ := Except.bind_eq_ok.1 outlined
      obtain rfl := Except.pure_eq_ok.1 eq
      obtain ⟨instructions, lowered, generated⟩ := Except.bind_eq_ok.1 generated
      obtain ⟨words, encoded, generated⟩ := Except.bind_eq_ok.1 generated
      obtain ⟨others, generatedRest, eq⟩ := Except.bind_eq_ok.1 generated
      obtain rfl := Except.pure_eq_ok.1 eq
      -- here the passes could part: the words must be as many as were counted
      have size : words.length = command.size :=
        (encodeFrom_length encoded).trans (Scope.lower_length lowered)
      have made : s.wordsAt site (.instruction mnemonic operands span) = words := by
        simp [Scope.wordsAt, checked, lowered, encoded, bind, Except.bind, Except.toOption]
      rw [size] at generatedRest
      obtain ⟨eq, length, makes⟩ := ih outlinedRest generatedRest
      refine ⟨by simp [Scope.emit, made, size, eq], fun k => ?_, fun k line there => ?_⟩
      · cases k with
        | zero => rfl
        | succ k => simp [Scope.emit, made, Line.size, checked, size, ← length k]
      · cases k with
        | zero =>
          obtain rfl := Option.some.inj there
          exact ⟨words, by simp [Scope.emit, made], command, instructions, checked, lowered, encoded⟩
        | succ k =>
          obtain ⟨others, at_k, makes⟩ := makes k line there
          refine ⟨others, by simpa [Scope.emit, made, size] using at_k, ?_⟩
          simpa [Line.size, checked, Nat.add_assoc] using makes

namespace Listing

variable {l : Listing} {p : Program}

/-- What is known of the program of a listing. -/
theorem assemble_eq_ok (assembled : l.assemble = .ok p) :
    ∃ found, outline l.lines = .ok found
      ∧ l.scope = ⟨l.constants, found.labels⟩
      ∧ generateFrom l.scope 0 found.commands = .ok p.code
      ∧ p.data = Program.wordsOfBytes (dataBytes l.constants) := by
  obtain ⟨found, outlined, assembled⟩ := Except.bind_eq_ok.1 assembled
  obtain ⟨code, generated, eq⟩ := Except.bind_eq_ok.1 assembled
  obtain rfl := Except.pure_eq_ok.1 eq
  have scope : l.scope = ⟨l.constants, found.labels⟩ := by
    simp [Listing.scope, outlined, Except.toOption]
  exact ⟨found, outlined, scope, scope ▸ generated, rfl⟩

/-- The code of a program is what is made of each line. -/
theorem code_eq (assembled : l.assemble = .ok p) : p.code = l.emitted.flatten := by
  obtain ⟨found, outlined, -, generated, -⟩ := assemble_eq_ok assembled
  exact (emit_of_passes outlined generated).1

/-- **The two passes count the same.** -/
theorem before_eq_counted (assembled : l.assemble = .ok p) (k : Nat) :
    l.before k = l.counted k := by
  obtain ⟨found, outlined, -, generated, -⟩ := assemble_eq_ok assembled
  exact (emit_of_passes outlined generated).2.1 k

/-- The places of lines are in the code. -/
theorem before_le (assembled : l.assemble = .ok p) (k : Nat) :
    l.before k ≤ p.code.length := by
  rw [code_eq assembled, before]
  conv => rhs; rw [← List.take_append_drop k l.emitted, List.flatten_append]
  rw [List.length_append]
  exact Nat.le_add_right _ _

/-- What is made of a line is made of it at the place that the first pass has given it. -/
theorem makes_of_line (assembled : l.assemble = .ok p) {k : Nat} {line : Line}
    (there : l.lines[k]? = some line) :
    ∃ words, l.emitted[k]? = some words ∧ l.scope.Makes (l.before k) line words := by
  obtain ⟨found, outlined, -, generated, -⟩ := assemble_eq_ok assembled
  obtain ⟨words, made, makes⟩ := (emit_of_passes outlined generated).2.2 k line there
  rw [Nat.zero_add] at makes
  exact ⟨words, made, before_eq_counted assembled k ▸ makes⟩

/-- A label stands for the place of the words that come after it. -/
theorem lookup_label (assembled : l.assemble = .ok p) {m : Nat} {name : String} {place : Span}
    (there : l.lines[m]? = some (.label name place)) :
    l.scope.labels.lookup name = some (l.before m) := by
  obtain ⟨found, outlined, scope, -, -⟩ := assemble_eq_ok assembled
  rw [before_eq_counted assembled, scope, lookup_of_label outlined there, Nat.zero_add]
  rfl

/-- **The words of an instruction** are those of the machine's instructions it is lowered to, and they
stand in the code from the place of its line on, up to the place of the next line. -/
theorem has_of_line (assembled : l.assemble = .ok p) {k : Nat} {mnemonic : String}
    {operands : List Operand} {place : Span}
    (there : l.lines[k]? = some (.instruction mnemonic operands place)) :
    ∃ command instructions, Command.ofLine mnemonic operands place = .ok command
      ∧ l.scope.lower (l.before k) place command = .ok instructions
      ∧ l.before (k + 1) = l.before k + instructions.length
      ∧ ∀ j i, instructions[j]? = some i → p.Has (l.before k + j) i := by
  obtain ⟨words, made, command, instructions, checked, lowered, encoded⟩ :=
    makes_of_line assembled there
  have next : l.before (k + 1) = l.before k + words.length := by
    simp [before, List.take_add_one, made]
  refine ⟨command, instructions, checked, lowered, encodeFrom_length encoded ▸ next, ?_⟩
  intro j i at_j
  obtain ⟨word, at_word, of_word⟩ := encodeFrom_at encoded at_j
  refine ⟨word, ?_, of_word⟩
  rw [code_eq assembled]
  exact flatten_at made at_word

end Listing

end Polyglot.Assembly
