import Mathlib
import Polyglot.Proofs.B.Definite
import Polyglot.Proofs.B.Programs
import Polyglot.Proofs.B.Validity

/-!
# Compiling preserves meaning

A source is compiled to the lines of the assembly language, these are written and read
again, and the program that is assembled from what was read is run. What the machine does is what the source
means (`performs_of_source`): it ends with the same number, stops at a division by zero
just if the source divides by zero, goes on for ever just if the source does, and prints
the same all the time.
-/

namespace Polyglot.B

open Polyglot.Assembly (Listing)
open Polyglot.Machine (State)

/-! ## How programs end -/

namespace Program

variable (p : Program)

/-- Whether a program ends with a number, having printed something. -/
def Exits (value : Int32) (output : Array UInt8) : Prop :=
  ∃ allowance, p.run allowance = (.ok value, output)

/-- Whether a program stops at a division by zero, having printed something. -/
def Divides (output : Array UInt8) : Prop :=
  ∃ allowance, p.run allowance = (.error .divisionByZero, output)

/-- Whether a program never ends: it uses up every allowance. -/
def NeverEnds : Prop := ∀ allowance, (p.run allowance).1 = .error .exhausted

/-- Whether a program has printed something at some time, and maybe more. -/
def Prints (text : List UInt8) : Prop :=
  ∃ allowance, text <+: (p.run allowance).2.toList

end Program

/-- Whether a machine does what a program means. -/
structure Performs (p : Program) (start : State) : Prop where
  /-- The program ends with a number, stops at a division by zero, or never ends. -/
  ends : (∃ value output, p.Exits value output) ∨ (∃ output, p.Divides output) ∨ p.NeverEnds
  /-- If it ends, the machine does too, with the number. -/
  exits : ∀ value output, p.Exits value output → start.Exits value output
  /-- If it stops, the machine does too. -/
  divides : ∀ output, p.Divides output → ∃ address, start.Fails (.divisionByZero address) output
  /-- If it never ends, the machine never stops. -/
  neverStops : p.NeverEnds → start.NeverStops
  /-- The machine prints what the program does. -/
  prints : ∀ text, p.Prints text ↔ start.Prints text

variable {p : Program} {n : Nat} {start : State}

/-- The output of a run is that of the machine at some time, which is late or when it has
stopped. -/
theorem Answers.output {outcome : Except Stop Int32 × Array UInt8}
    (h : Answers n start outcome) (defined : outcome.1 ≠ .error .undefined) :
    ∃ m, (start.runFor m).1.output = outcome.2 ∧ (n ≤ m ∨ (start.runFor m).2.isSome) := by
  rcases outcome with ⟨(_ | _ | _) | a, output⟩
  · obtain ⟨m, s, address, eq, rfl⟩ := h
    exact ⟨m, by rw [eq], .inr (by rw [eq]; rfl)⟩
  · obtain ⟨m, s, le, eq, rfl⟩ := h
    exact ⟨m, by rw [eq], .inl le⟩
  · exact absurd rfl defined
  · obtain ⟨m, s, eq, rfl⟩ := h
    exact ⟨m, by rw [eq], .inr (by rw [eq]; rfl)⟩

/-- A machine that answers to all runs of a program that has a meaning does what the
program means. -/
theorem performs_of_answers (answers : ∀ n, Answers n start (p.run n))
    (defined : ∀ n, (p.run n).1 ≠ .error .undefined) : Performs p start where
  ends := by
    by_cases never : p.NeverEnds
    · exact .inr (.inr never)
    · obtain ⟨n, ends⟩ := Classical.not_forall.1 never
      have meant := defined n
      obtain ⟨outcome, eq⟩ : ∃ outcome, p.run n = outcome := ⟨_, rfl⟩
      rw [eq] at ends meant
      rcases outcome with ⟨(_ | _ | _) | a, output⟩
      · exact .inr (.inl ⟨output, n, eq⟩)
      · exact absurd rfl ends
      · exact absurd rfl meant
      · exact .inl ⟨a, output, n, eq⟩
  exits value output := by
    rintro ⟨n, eq⟩
    have answered := answers n
    rw [eq] at answered
    exact answered
  divides output := by
    rintro ⟨n, eq⟩
    have answered := answers n
    rw [eq] at answered
    obtain ⟨m, s, address, rest⟩ := answered
    exact ⟨address, m, s, rest⟩
  neverStops never n := by
    -- the machine is still running after no fewer steps, so it had not stopped before
    have answered := answers n
    have exhausted := never n
    revert answered exhausted
    rcases p.run n with ⟨outcome, output⟩
    rintro answered rfl
    obtain ⟨m, s, le, eq, -⟩ := answered
    by_contra stopped
    have same := State.runFor_eq_of_le le (Option.isSome_iff_ne_none.2 stopped)
    rw [← same, eq] at stopped
    exact stopped rfl
  prints text := by
    constructor
    · rintro ⟨n, printed⟩
      obtain ⟨m, eq, -⟩ := (answers n).output (defined n)
      exact ⟨m, eq ▸ printed⟩
    · rintro ⟨n, printed⟩
      obtain ⟨m, eq, le | stopped⟩ := (answers n).output (defined n)
      · exact ⟨n, eq ▸ printed.trans (State.prolongs_runFor le)⟩
      · -- the program stopped, so it has printed all that it ever prints
        refine ⟨n, eq ▸ ?_⟩
        rcases Nat.le_total n m with le | le
        · exact printed.trans (State.prolongs_runFor le)
        · rwa [State.runFor_eq_of_le le stopped] at printed

/-- **Compiling preserves meaning**: the program that a tree was compiled to, in any machine
that it can be loaded in, does what the tree means, as long as the stack is deep
enough. -/
theorem performs_of_compile {t : Tree} {l : Listing} {code : Machine.Program}
    {config : Machine.Config} {input : List UInt8} {start : State}
    (compiled : compile t = .ok l) (assembled : l.assemble = .ok code)
    (loaded : State.load config code input = .ok start) (unlimited : config.maxSteps = none)
    (keeps : ¬ start.Overflows) (plain : (Program.ofTree t).plain)
    (definite : (Program.ofTree t).definite)
    (alone : ∀ f, (Program.ofTree t).function? "main" = some f → f.parameters = []) :
    Performs (Program.ofTree t) start :=
  performs_of_answers
    (Program.answers compiled (Program.closed_ofTree t) alone assembled loaded unlimited keeps)
    (Program.run_defined compiled plain definite alone)

section

variable {source : String} {raw : Tree} {l : Listing} {code : Machine.Program}
  {config : Machine.Config} {input : List UInt8}

/-- **Compiling a source preserves its meaning**: the program that is assembled from the
written form of what it is compiled to does what the source means, as long as the stack is
deep enough. -/
theorem performs_of_source (parsed : language.parse source = .ok raw)
    (compiled : compile (language.shake raw) = .ok l) {t u : Tree}
    (read : Assembly.language.parse l.source = .ok t)
    (form : u = t ∨ u = Assembly.language.shake t) (assembled : Assembly.assemble u = .ok code)
    (loaded : State.load config code input = .ok start) (unlimited : config.maxSteps = none)
    (keeps : ¬ start.Overflows) (plain : (Program.ofTree (language.shake raw)).plain)
    (definite : (Program.ofTree (language.shake raw)).definite)
    (alone : ∀ f, (Program.ofTree (language.shake raw)).function? "main" = some f →
      f.parameters = []) : Performs (Program.ofTree (language.shake raw)) start := by
  have same := toOption_assemble parsed compiled read form
  rw [assembled, Except.toOption_ok] at same
  split at same
  · have assembled : l.assemble = .ok code := Except.toOption_eq_some.1 same.symm
    exact performs_of_compile compiled assembled loaded unlimited keeps plain definite alone
  · cases same

/-- A source in which a function is called and the result is printed. -/
def half : String :=
  "fn main()\x7bprinti(half(3));return 7;\x7dfn half(n)\x7breturn n/2;\x7d"

/-- The program that the source is compiled to. -/
def halfProgram : Machine.Program where
  data := []
  code := [
    0x80610008, 0xf000000c, 0xe0738000, 0xe0080000, 0x8042fff4, 0xd1880000, 0x81c00003, 0x80610008,
    0xf0000030, 0xd7080004, 0xc7880004, 0x81c00003, 0xf8000000, 0xd7080008, 0x81c00007, 0xf0000008,
    0x81c00000, 0xc1880000, 0x8042000c, 0xe008c000, 0x8042fff4, 0xd1880000, 0xd7080004, 0xc2880004,
    0x8c850002, 0xd2080008, 0xc7080008, 0xf0000008, 0x81c00000, 0xc1880000, 0x8042000c, 0xe008c000,
    0x81c00000, 0xe0080000]

theorem performs_half : ∃ raw l t start, language.parse half = .ok raw
    ∧ compile (language.shake raw) = .ok l ∧ Assembly.language.parse l.source = .ok t
    ∧ Assembly.assemble t = .ok halfProgram ∧ State.load {} halfProgram [] = .ok start
    ∧ ¬ start.Overflows ∧ (Program.ofTree (language.shake raw)).plain
    ∧ (Program.ofTree (language.shake raw)).definite
    ∧ (∀ f, (Program.ofTree (language.shake raw)).function? "main" = some f → f.parameters = [])
    ∧ (Program.ofTree (language.shake raw)).Exits 7 #[49]
    ∧ Performs (Program.ofTree (language.shake raw)) start := by
  -- two evaluations give all that is needed: of compiling and running
  have checked : ((lexicon.tokenize half.toList).toOption.bind (readGrammar.parseAlong 80)).any
      fun raw => let p := Program.ofTree (language.shake raw)
        (compile (language.shake raw)).toOption.any
            (fun l => l.fits && l.assemble.toOption == some halfProgram)
          && p.plain && p.definite && (p.function? "main").all (·.parameters == [])
          && decide ((p.run 5).1.toOption = some 7 ∧ (p.run 5).2 = #[49]) := by
    decide +kernel
  obtain ⟨raw, found, checked⟩ := (Option.any_eq_true ..).1 checked
  obtain ⟨ts, cut, found⟩ := Option.bind_eq_some_iff.1 found
  simp only [Bool.and_eq_true, decide_eq_true_eq, Option.any_eq_true, beq_iff_eq] at checked
  obtain ⟨⟨⟨⟨⟨l, compiled, fits, assembled⟩, plain⟩, definite⟩, alone⟩, ends, printed⟩ := checked
  replace compiled := Except.toOption_eq_some.1 compiled
  have parsed : language.parse half = .ok raw := parse_eq_ok.2
    ⟨ts, Except.toOption_eq_some.1 cut, Grammar.parseTokens_of_parseAlong found⟩
  obtain ⟨t, read, -⟩ := Listing.parse_source (written_of_compile parsed compiled)
  have same : (Assembly.assemble t).toOption = _ := toOption_assemble parsed compiled read (.inl rfl)
  rw [if_pos fits, assembled] at same
  replace assembled := Except.toOption_eq_some.1 same
  have ran : (State.load {} halfProgram []).toOption.bind (fun s => (s.runFor 31).2)
      = some (.ok 7) := by
    cbv
  obtain ⟨start, loaded, ran⟩ := Option.bind_eq_some_iff.1 ran
  replace loaded := Except.toOption_eq_some.1 loaded
  have keeps : ¬ start.Overflows := State.not_overflows_of_runFor ran
  have alone : ∀ f, (Program.ofTree (language.shake raw)).function? "main" = some f →
      f.parameters = [] := by
    intro f main
    rw [main] at alone
    exact beq_iff_eq.1 alone
  exact ⟨raw, l, t, start, parsed, compiled, read, assembled, loaded, keeps, plain, definite, alone,
    ⟨5, Prod.ext (Except.toOption_eq_some.1 ends) printed⟩, performs_of_source parsed compiled read
      (.inl rfl) assembled loaded rfl keeps plain definite alone⟩

end

end Polyglot.B
