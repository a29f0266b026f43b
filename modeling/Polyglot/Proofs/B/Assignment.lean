import Polyglot.Proofs.B.Programs
import Polyglot.Proofs.B.Sentences
import Polyglot.Proofs.B.Unwritten

/-!
# Variables that are assigned before they are read

The message for a variable without a slot says that it is used before being assigned. But
every name that is assigned anywhere in a function has a slot, so a program is refused only
if it reads a variable that is assigned nowhere. If it is assigned later, or on another path, the
program is compiled, and reads what an earlier call has left in the slot (`reads_leftover`).

The functions of a program write every variable before they read it just if they can be
seen to assign it on all paths before (`compile_writesFirst_iff`).
-/

namespace Polyglot.B

open Polyglot.Assembly (Line Listing)
open Polyglot.Machine (Register)

/-- **Whether a function writes its variables before it reads them**: on every way through a call
of it, the slot of a name is only read after it was written in the same call. -/
def WritesFirst (l : Listing) (f : Function) : Prop :=
  ∀ first k written r, l.Marks first (functionLabel f.name) → Way l first k written →
    ∀ name ∈ f.names, l.Orders k (.load r .sp (distanceOf f.names name)) →
      distanceOf f.names name ∈ written

namespace Program

variable {p : Program} {l : Listing}

/-- A program that assigns its variables on all paths before it reads them writes them before it
reads them. -/
theorem writesFirst_of_definite (done : p.compile = .ok l) (definite : p.definite) {f : Function}
    (mem : f ∈ p.functions) : WritesFirst l f := by
  obtain ⟨marks, starts, carries⟩ := exists_carries done definite
  intro first k written r begins way name among orders
  refine (way.mem_of_load carries begins orders).resolve_right fun granted => ?_
  rw [starts f mem] at granted
  cases granted name among rfl

/-- A program that writes its variables before it reads them assigns them on all paths. -/
theorem definite_of_writesFirst (done : p.compile = .ok l)
    (alone : ∀ f ∈ p.functions, ∀ body, f.body = some body → body.callsAlone)
    (first : ∀ f ∈ p.functions, WritesFirst l f) : p.definite := by
  obtain ⟨arities, code, σ', -, known, -, compiled, lines⟩ := compile_eq_ok done
  have contains : l.Contains 0 (startLines (numbered 0) ++ code ++ [line "exitv" [.int 0]]) :=
    lines ▸ fun i line there => by rwa [Nat.zero_add]
  rw [Listing.contains_append, Listing.contains_append] at contains
  have few (name : String) (count : Nat) (there : arities.lookup name = some count) :
      count ≤ maxParameters := by
    obtain ⟨-, -, -, -, few⟩ := find?_of_aritiesFrom known rfl there
    exact few
  refine List.all_eq_true.2 fun f mem => ?_
  obtain ⟨before, inner, after, σ₁, σ₂, compiled', rfl⟩ := compileFunctions_mem compiled mem
  simp only [Listing.contains_append] at contains
  have inside := contains.1.2.1.2
  exact f.definite_of_safe (fun k written r way name among orders =>
    first f mem _ k written r (Function.marks compiled' inside) way name among orders) few (alone f mem)
      compiled' inside

end Program

/-! ## Trees -/

namespace Statement

variable {t : Tree} {parts : List (Tree × Statement)}

theorem callsAloneAll_of_forall {bs : List Statement} (h : ∀ b ∈ bs, b.callsAlone) :
    callsAloneAll bs := by
  induction bs with
  | nil => trivial
  | cons b bs ih =>
    obtain ⟨first, others⟩ := List.forall_mem_cons.1 h
    exact ⟨first, ih others⟩

theorem callsAlone_conditional {label : String} {make : Expression → Statement → Statement}
    (makes : ∀ e u b, (u, b) ∈ parts → (make e b).callsAlone) :
    (conditional t label parts make).callsAlone := by
  unfold conditional
  split
  · trivial
  · dsimp only
    split
    · rename_i found
      obtain ⟨u, mem⟩ := mem_of_labeled? found
      exact makes _ u _ mem
    · trivial

/-- What is read as a call is no variable. -/
theorem expression_ne_variable (named : t.name = "call") (name : String) (span : Source.Span) :
    (Reading.ofTree t).expression ≠ .variable name span := by
  have call (parts : List Part) : Reading.call t parts ≠ .variable name span := by
    unfold Reading.call
    split <;> nofun
  cases t with
  | leaf =>
    obtain rfl := named
    exact call []
  | node _ _ _ children =>
    obtain rfl := named
    exact call (Reading.partsOf children)

/-- No variable stands alone in the statement of a tree if none does in its parts. -/
theorem callsAlone_ofParts (inside : ∀ u b, (u, b) ∈ parts → b.callsAlone) :
    (ofParts t parts).callsAlone := by
  unfold ofParts
  split
  · refine callsAloneAll_of_forall fun b mem => ?_
    obtain ⟨⟨u, b⟩, among, rfl⟩ := List.mem_map.1 mem
    exact inside u b (List.mem_of_mem_filter among)
  · exact callsAlone_conditional fun e u b mem => inside u b mem
  · refine callsAlone_conditional fun e u b mem => ?_
    split
    · rename_i found
      obtain ⟨u', mem'⟩ := mem_of_labeled? found
      exact ⟨inside u b mem, inside u' _ mem'⟩
    · exact inside u b mem
  · trivial
  · unfold assignment
    split <;> trivial
  · unfold storing
    split
    · trivial
    · dsimp only
      split <;> trivial
  · split
    · rename_i found
      exact expression_ne_variable (beq_iff_eq.1 (List.find?_some found :))
    · trivial
  · trivial
  · trivial

mutual

theorem callsAlone_ofTree (t : Tree) : (ofTree t).callsAlone := by
  cases t with
  | leaf name label terminal token => exact callsAlone_ofParts nofun
  | node name label choice children => exact callsAlone_ofParts (callsAlone_partsOf children)

theorem callsAlone_partsOf (ts : List Tree) : ∀ u b, (u, b) ∈ partsOf ts → b.callsAlone := by
  intro u b mem
  cases ts with
  | nil => cases mem
  | cons t ts =>
    rcases List.mem_cons.1 mem with eq | mem
    · obtain ⟨rfl, rfl⟩ := Prod.mk.inj eq
      exact callsAlone_ofTree u
    · exact callsAlone_partsOf ts u b mem

end

end Statement

theorem Program.callsAlone_ofTree (t : Tree) : ∀ f ∈ (Program.ofTree t).functions,
    ∀ body, f.body = some body → body.callsAlone := by
  intro f mem body found
  obtain ⟨u, -, rfl⟩ := List.mem_map.1 mem
  obtain ⟨v, -, rfl⟩ := Option.map_eq_some_iff.1 found
  exact Statement.callsAlone_ofTree v

/-- **The functions of a program that was compiled** write their variables before they read them,
on every way through every call, just if all of them are assigned on all paths before they
are read. -/
theorem compile_writesFirst_iff {t : Tree} {l : Listing} (compiled : compile t = .ok l) :
    (∀ f ∈ (Program.ofTree t).functions, WritesFirst l f) ↔ (Program.ofTree t).definite :=
  ⟨Program.definite_of_writesFirst compiled (Program.callsAlone_ofTree t),
    fun definite _ mem => Program.writesFirst_of_definite compiled definite mem⟩

/-- The tree of a program that gives one to a variable and returns it. -/
def assigning : Tree :=
  .node "program" none none [.node "function" none none [
    .leaf "identifier" (some "name") none { type := "identifier", lexeme := "main" },
    .node "block" (some "body") none [
      .node "assignment" none none [
        .leaf "identifier" (some "target") none { type := "identifier", lexeme := "x" },
        .leaf "integer" (some "value") none
          { type := "integer", lexeme := "1", literal := some (.int 1) }],
      .node "return" none none [
        .leaf "variable" (some "value") none { type := "identifier", lexeme := "x" }]]]]

theorem compile_writesFirst_assigning : ∃ l, compile assigning = .ok l
    ∧ ∀ f ∈ (Program.ofTree assigning).functions, WritesFirst l f := by
  have compiles : (compile assigning).toOption.isSome := by decide +kernel
  obtain ⟨l, compiled⟩ := Option.isSome_iff_exists.1 compiles
  have compiled := Except.toOption_eq_some.1 compiled
  exact ⟨l, compiled, (compile_writesFirst_iff compiled).2 (by decide +kernel)⟩

/-- A source in which a variable is read before it is assigned. The function that does so is
called where another one has left its argument. -/
def leftover : String :=
  "fn main() \x7b g(5); return f(); \x7d fn g(a) return a; fn f() \x7b return x; x = 1; \x7d"

/-- **The source is compiled**, though one of its functions reads a variable that it has not
written. -/
theorem reads_leftover : ∃ raw l, language.parse leftover = .ok raw
    ∧ compile (language.shake raw) = .ok l
    ∧ ¬ ∀ f ∈ (Program.ofTree (language.shake raw)).functions, WritesFirst l f := by
  have checked : ((lexicon.tokenize leftover.toList).toOption.bind (readGrammar.parseAlong 80)).any
      fun raw => (compile (language.shake raw)).toOption.isSome
        && !(Program.ofTree (language.shake raw)).definite := by
    decide +kernel
  obtain ⟨raw, found, checked⟩ := (Option.any_eq_true ..).1 checked
  obtain ⟨ts, cut, found⟩ := Option.bind_eq_some_iff.1 found
  simp only [Bool.and_eq_true, Option.isSome_iff_exists, Bool.not_eq_true'] at checked
  obtain ⟨⟨l, compiled⟩, indefinite⟩ := checked
  replace compiled := Except.toOption_eq_some.1 compiled
  have parsed : language.parse leftover = .ok raw := parse_eq_ok.2
    ⟨ts, Except.toOption_eq_some.1 cut, Grammar.parseTokens_of_parseAlong found⟩
  refine ⟨raw, l, parsed, compiled, fun first => ?_⟩
  have definite := Program.definite_of_writesFirst compiled (Program.callsAlone_ofTree _) first
  rw [indefinite] at definite
  cases definite

end Polyglot.B
