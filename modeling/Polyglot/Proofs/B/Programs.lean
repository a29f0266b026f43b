import Polyglot.Proofs.B.Functions
import Polyglot.Proofs.B.Reading

/-!
# The code of programs

That calls do what they should (`Program.callable`) is shown by an induction on the
allowance. What is in a call of a function with an allowance of `j + 1` calls has one of
`j`, and for an allowance of zero there is nothing to show: the calls have used it up at
once, and the machine needs no step for this.

The code of a program calls the function `main` and then ends with what it gives
(`Program.simulates`).
-/

namespace Polyglot.B

open Polyglot.Source
open Polyglot.Assembly (Line Listing Command Operand Operation)
open Polyglot.Machine (Register Setup State View Memory Syscall Fault)

/-- Whether every name that is assigned in a function has a slot. -/
def Program.Closed (p : Program) : Prop :=
  ∀ f ∈ p.functions, ∀ body, f.body = some body → ∀ name ∈ body.targets, name ∈ f.names

theorem Program.closed_ofTree (t : Tree) : (Program.ofTree t).Closed := by
  intro f mem body found
  obtain ⟨u, -, rfl⟩ := List.mem_map.1 mem
  exact Function.targets_ofTree found

section

variable {constants : List String} {arities : List (String × Nat)} {σ σ' : Supply}
  {x : Setup} {l : Listing} {p : Program} {code : List Line} {k : Nat}

/-- The code of a function that can be called is there. -/
theorem Program.contains_of_lookup (known : aritiesFrom [] p.functions = .ok arities)
    (done : compileFunctions constants arities p.functions σ = .ok (code, σ'))
    (contains : l.Contains k code) {name : String} {count : Nat}
    (there : arities.lookup name = some count) :
    ∃ f k' inner σ₁ σ₂, p.function? name = some f ∧ f ∈ p.functions ∧ f.name = name
      ∧ f.parameters.length = count ∧ count ≤ maxParameters
      ∧ f.compile constants arities σ₁ = .ok (inner, σ₂) ∧ l.Contains k' inner := by
  obtain ⟨f, found, same, length, few⟩ := find?_of_aritiesFrom known rfl there
  have mem := List.mem_of_find?_eq_some found
  obtain ⟨before, inner, after, σ₁, σ₂, compiled, rfl⟩ := compileFunctions_mem done mem
  rw [Listing.contains_append, Listing.contains_append] at contains
  exact ⟨f, _, inner, σ₁, σ₂, found, mem, same, length, few, compiled, contains.1.2⟩

/-- The code of a function starts with its label. -/
theorem Function.marks {f : Function} (done : f.compile constants arities σ = .ok (code, σ'))
    (contains : l.Contains k code) : l.Marks k (functionLabel f.name) := by
  obtain ⟨body, inner, -, -, rfl⟩ := Function.compile_eq_ok done
  exact ⟨_, contains 0 _ rfl⟩

/-- **Calls of the functions of a program** do what they should, with any allowance. -/
theorem Program.callable (assembled : l.assemble = .ok x.program)
    (known : aritiesFrom [] p.functions = .ok arities)
    (done : compileFunctions constants arities p.functions σ = .ok (code, σ'))
    (contains : l.Contains k code) (closed : p.Closed) (j : Nat) :
    Callable x l j (p.call j) arities := by
  induction j with
  | zero =>
    intro name count there
    obtain ⟨f, k', inner, σ₁, σ₂, -, -, rfl, -, -, compiled, inside⟩ :=
      contains_of_lookup known done contains there
    exact ⟨k', Function.marks compiled inside, fun _ _ _ _ _ _ _ _ _ => .exhausted⟩
  | succ j ih =>
    intro name count there
    obtain ⟨f, k', inner, σ₁, σ₂, found, mem, rfl, rfl, few, compiled, inside⟩ :=
      contains_of_lookup known done contains there
    refine ⟨k', Function.marks compiled inside, fun values length m base v sp high passed back => ?_⟩
    simp only [Program.call, found]
    exact f.simulates assembled ih compiled inside few (closed f mem) length sp high passed back

/-! ## The whole program -/

/-- **The code of a program** does what the program does, up to the line that ends the run
with the result. -/
theorem Program.simulates (assembled : l.assemble = .ok x.program) (done : p.compile = .ok l)
    (closed : p.Closed) (plain : ∀ f, p.function? "main" = some f → f.parameters = []) {v : View}
    (sp : (v.get .sp).toInt = x.config.memorySize) (j : Nat) :
    Simulates x j (l.before 0) v (p.call j "main" []) fun a n v' =>
      n = l.before 3 ∧ v'.get .a0 = a := by
  obtain ⟨arities, code, σ', -, known, there, compiled, lines⟩ := compile_eq_ok done
  obtain ⟨count, there⟩ := Option.isSome_iff_exists.1 there
  obtain ⟨f, found, -, rfl, -⟩ := find?_of_aritiesFrom known rfl there
  have contains : l.Contains 0 (startLines (numbered 0) ++ code ++ [line "exitv" [.int 0]]) :=
    lines ▸ fun i line there => by rwa [Nat.zero_add]
  rw [Listing.contains_append, Listing.contains_append] at contains
  have called : l.Contains 0 (Scope.callLines "main" (numbered 0) []) := by
    have : startLines (numbered 0) = Scope.callLines "main" (numbered 0) []
      ++ [line "exit" [Register.a0]] := rfl
    rw [this, Listing.contains_append] at contains
    exact contains.1.1.1
  have callable := p.callable assembled known compiled contains.1.2 closed j
  have none : List.Forall₂ (fun value a => Value.Denotes x.config.memorySize 0 v a value) [] [] := .nil
  refine (callLines_simulate (s := ⟨l.constants, arities, [], ""⟩) assembled
    callable sp (Nat.le_refl _) (by rw [there, plain f found]; rfl) called none).weaken
      fun a n v' h => ⟨h.back, h.result⟩

/-- How a machine answers to a run of a program: it ends with the same number, or with a
division by zero, or is still going after `n` steps if the allowance was used up, and has
the same output. -/
def Answers (n : Nat) (start : State) : Except Stop Int32 × Array UInt8 → Prop
  | (.ok a, output) => ∃ m s, start.runFor m = (s, some (.ok a)) ∧ s.output = output
  | (.error .divisionByZero, output) => ∃ m s address,
    start.runFor m = (s, some (.error (.divisionByZero address))) ∧ s.output = output
  | (.error .exhausted, output) => ∃ m s, n ≤ m ∧ start.runFor m = (s, none) ∧ s.output = output
  | (.error .undefined, _) => True

/-- **The program of a listing that was compiled** answers to all runs of what it was
compiled from. -/
theorem Program.answers (done : p.compile = .ok l) (closed : p.Closed)
    (plain : ∀ f, p.function? "main" = some f → f.parameters = []) {code : Machine.Program}
    (assembled : l.assemble = .ok code) {config : Machine.Config} {input : List UInt8}
    {start : State} (loaded : State.load config code input = .ok start)
    (unlimited : config.maxSteps = none) (keeps : ¬ start.Overflows) (n : Nat) :
    Answers n start (p.run n) := by
  obtain ⟨x, v, rfl, rfl, shows, sp, output⟩ := Setup.exists_shows loaded unlimited
  have follows := p.simulates assembled done closed plain sp n start shows keeps
  rw [output] at follows
  unfold Program.run
  generalize p.call n "main" [] #[] = outcome at follows ⊢
  rcases outcome with ⟨(_ | _ | _) | a, output⟩
  · obtain ⟨m, s, s', a, advances, stepped, eq⟩ := follows
    refine ⟨m + 1, s', a, ?_, eq⟩
    rw [advances.runFor_add, State.runFor, stepped]
  · obtain ⟨m, s, le, advances, eq⟩ := follows
    exact ⟨m, s, le, advances.runFor_self, eq⟩
  · trivial
  · obtain ⟨m, s, n', v', advances, shows', rfl, rfl, rfl⟩ := follows
    obtain ⟨arities, code, σ', -, -, -, -, lines⟩ := compile_eq_ok done
    have orders : l.Orders 3 (.exit .a0) := by
      refine ⟨"exit", [.register .a0], .start, ?_, rfl⟩
      rw [lines]
      rfl
    obtain ⟨m', s', ran, eq⟩ := Listing.exits assembled orders (by decide) shows' fun overflows =>
      keeps (advances.overflows overflows)
    exact ⟨m + m', s', by rw [advances.runFor_add, ran], eq⟩

end

end Polyglot.B
