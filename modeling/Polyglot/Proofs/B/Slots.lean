import Polyglot.Proofs.B.Definite
import Polyglot.Proofs.B.Output
import Polyglot.Proofs.B.Ways

/-!
# Slots that are written before they are read

A function has a slot for every name that is assigned anywhere in it. That a variable is
assigned before it is read is not asked for, so a slot may be read that nothing was written to
in the call, and then what is found there was left by an earlier call.

It does not happen on any way through a function that assigns its variables on all paths
before it reads them (`Program.mem_of_reads`): what is known of the variables in the source is
written in the code.
-/

namespace Polyglot.B

open Polyglot.Assembly (Line Listing Command Operand)
open Polyglot.Machine (Register Syscall)

/-- The distance of the slot of a name. -/
def distanceOf (names : List String) (name : String) : Int := 4 * slotOf names name

/-- What may be read if some variables are known: their slots, and all that is no slot of a
variable. -/
def readable (names : List String) (known : Known) : Set Int :=
  {distance | ∀ name ∈ names, distance = distanceOf names name → known name = true}

section

variable {names : List String} {known known' : Known} {name : String}

theorem distanceOf_inj (mem : name ∈ names) {other : String}
    (same : distanceOf names name = distanceOf names other) : name = other := by
  unfold distanceOf slotOf at same
  exact (List.idxOf_inj mem).1 (by omega)

theorem mem_readable (is : known name = true) (mem : name ∈ names) :
    distanceOf names name ∈ readable names known := by
  intro other _ same
  rwa [← distanceOf_inj mem same]

theorem readable_mono (le : known.Le known') : readable names known ⊆ readable names known' :=
  fun _ mem name among same => le name (mem name among same)

/-- Slot zero, and those behind the slots of the names, are none of them. -/
theorem mem_readable_of_outside {n : Nat} (outside : n = 0 ∨ names.length < n) :
    (4 * n : Int) ∈ readable names known := by
  intro name mem same
  have le := slotOf_le mem
  unfold distanceOf slotOf at same
  unfold slotOf at le
  omega

theorem readable_add {target : String} {distance : Int}
    (mem : distance ∈ readable names (known.add target)) :
    distance = distanceOf names target ∨ distance ∈ readable names known := by
  refine or_iff_not_imp_left.2 fun ne name among same => ?_
  have is := mem name among same
  rw [Known.add, Bool.or_eq_true, beq_iff_eq] at is
  rcases is with rfl | is
  · exact absurd same ne
  · exact is

end

/-! ## Labels that are given out -/

/-- Whether something can be had by a choice of what is written at the labels from one number up
to another. -/
def Chooses (low high : Nat) (P : (String → Set Int) → Prop) : Prop :=
  low ≤ high ∧ ∃ chosen : Nat → Set Int, ∀ marks : String → Set Int,
    (∀ n, low ≤ n → n < high → marks (numbered n) = chosen n) → P marks

namespace Chooses

variable {a b c : Nat} {P Q R : (String → Set Int) → Prop}

/-- What holds for all choices. -/
theorem of (h : ∀ marks, P marks) : Chooses a a P :=
  ⟨Nat.le_refl _, fun _ => ∅, fun marks _ => h marks⟩

theorem imp (h : Chooses a b P) (implies : ∀ marks, P marks → Q marks) : Chooses a b Q := by
  obtain ⟨le, chosen, has⟩ := h
  exact ⟨le, chosen, fun marks agrees => implies marks (has marks agrees)⟩

/-- What is written at the label that is given out next is chosen. -/
theorem one (written : Set Int) : Chooses a (a + 1) fun marks => marks (numbered a) = written :=
  ⟨Nat.le_succ _, fun _ => written, fun _ agrees => agrees a (Nat.le_refl _) (Nat.lt_succ_self _)⟩

/-- Two choices, one after the other. -/
theorem both (h : Chooses a b P) (h' : Chooses b c Q) : Chooses a c fun marks => P marks ∧ Q marks := by
  obtain ⟨le, chosen, has⟩ := h
  obtain ⟨le', chosen', has'⟩ := h'
  refine ⟨Nat.le_trans le le', fun n => if n < b then chosen n else chosen' n, fun marks agrees => ?_⟩
  refine ⟨has marks fun n low high => ?_, has' marks fun n low high => ?_⟩
  · exact (agrees n low (Nat.lt_of_lt_of_le high le')).trans (if_pos high)
  · exact (agrees n (Nat.le_trans le low) high).trans (if_neg (Nat.not_lt.2 low))

end Chooses

/-! ## Lines -/

/-- Whether a value can be had where some distances have been written. -/
def Value.Within (written : Set Int) : Value → Prop
  | .slot n => (4 * n : Int) ∈ written
  | .int _ | .constant _ => True

section

variable {marks : String → Set Int} {written : Set Int} {value left right : Value} {r : Register}

/-- An instruction that neither reads next to the stack pointer nor goes to a label. -/
theorem carries_plain {c : Command} {mnemonic : String} {operands : List Operand}
    (checked : Command.ofLine mnemonic operands .start = .ok c)
    (reads : ∀ r distance, c ≠ .load r .sp distance) (stays : ∀ name, ¬ Reaches c name) :
    Carries marks written [line mnemonic operands] written :=
  .instruction checked ⟨fun r distance eq => absurd eq (reads r distance),
    fun name reaches => absurd reaches (stays name)⟩ subset_leaves

theorem carries_load (within : value.Within written) (r : Register) :
    Carries marks written [value.load r] written := by
  cases value with
  | slot n =>
    have admits : Admits marks written (.load r .sp (4 * n)) := by
      refine ⟨?_, nofun⟩
      rintro _ _ ⟨⟩
      exact within
    exact .instruction rfl admits subset_leaves
  | int value => exact carries_plain (c := .put r (.int value.toInt)) rfl nofun nofun
  | constant index => exact carries_plain (c := .put r (.constant index)) rfl nofun nofun

theorem carries_loads {values : List Value} (within : ∀ value ∈ values, value.Within written)
    (registers : List Register) :
    Carries marks written (List.zipWith Value.load registers values) written := by
  induction registers generalizing values with
  | nil => exact subset_rfl
  | cons r registers ih =>
    cases values with
    | nil => exact subset_rfl
    | cons value values =>
      obtain ⟨first, others⟩ := List.forall_mem_cons.1 within
      exact (carries_load first r).append (ih others)

theorem carries_saveTo (n : Nat) (r : Register) :
    Carries marks written [saveTo n r] (insert (4 * n : Int) written) := by
  refine .instruction (c := .store r .sp (4 * n)) rfl ⟨nofun, nofun⟩ fun distance mem => ?_
  exact mem.imp (fun eq => List.mem_singleton.2 eq) .inl

theorem carries_operator (op : Operator) (first : left.Within written)
    (second : right.Within written) : Carries marks written (op.lines left right) written := by
  have registers : Carries marks written
      [line op.mnemonic [Register.t0, Register.t1, Register.t2]] written :=
    carries_plain (op.ofLine_mnemonic .t0 .t1 .t2) nofun nofun
  have withValue (value : Int) : Carries marks written
      [line (op.mnemonic ++ "v") [Register.t0, Register.t1, .int value]] written :=
    carries_plain (op.ofLine_mnemonic_with .t0 .t1 value) nofun nofun
  cases right with
  | int value => exact (carries_load first .t1).append (withValue _)
  | slot | constant =>
    exact (carries_load first .t1).append ((carries_load second .t2).append registers)

theorem carries_host (host : Syscall) {values : List Value}
    (within : ∀ value ∈ values, value.Within written) :
    Carries marks written (Scope.hostLines host values) written :=
  (carries_loads within _).append (carries_plain (c := .sysOf host.number) rfl nofun nofun)

/-- A jump to a label goes nowhere else. -/
theorem carries_jumpv {name : String} (inside : ∀ callee, name ≠ functionLabel callee)
    (le : marks name ⊆ written) (written' : Set Int) :
    Carries marks written [line "jumpv" [.label name]] written' := by
  refine .instruction (c := .jumpTo (.label name)) rfl ⟨nofun, ?_⟩ ?_
  · rintro _ ⟨rfl, -⟩
    exact le
  · rw [leaves_of_ends (c := .jumpTo (.label name)) inside]
    exact Set.subset_univ _

theorem carries_jumpUnless {name : String} (within : value.Within written)
    (le : marks name ⊆ written) : Carries marks written (jumpUnless value name) written := by
  have branch : Carries marks written [line "jumpifv" [.label name, Register.t0]] written := by
    refine .instruction (c := .jumpToIf (.label name) .t0) rfl ⟨nofun, ?_⟩ subset_leaves
    rintro _ rfl
    exact le
  have test : Carries marks written [line "eqv" [Register.t0, Register.t0, .int 0]] written :=
    carries_plain (c := .computeWith ⟨.eq, false⟩ .t0 .t0 0) rfl nofun nofun
  exact (carries_load within .t0).append (test.append branch)

/-- A call comes back to the label behind it with all that was written before. -/
theorem carries_call {callee back : String} {values : List Value}
    (within : ∀ value ∈ values, value.Within written) (same : marks back = written) :
    Carries marks written (Scope.callLines callee back values) written := by
  have address : Carries marks written [line "setv" [Register.ra, .label back]] written :=
    carries_plain (c := .put .ra (.label back)) rfl nofun nofun
  have jump : Carries marks written [line "jumpv" [.label (functionLabel callee)]] written :=
    carries_plain (c := .jumpTo (.label (functionLabel callee))) rfl nofun
      fun _ ⟨_, inside⟩ => inside callee rfl
  exact (carries_loads within _).append
    (address.append (jump.append (.label same.subset same.superset)))

end

/-! ## Expressions -/

section

variable {s : Scope} {known : Known} {a : Nat} {σ σ' : Supply} {code : List Line} {r : Register}

/-- The last lines of a stretch that leaves its result in a temporary. -/
theorem Chooses.keep {result : List Line × Value}
    (h : Chooses a σ.labels fun marks =>
      Carries marks (readable s.names known) code (readable s.names known))
    (kept : s.keep code r σ = .ok (result, σ')) :
    Chooses a σ'.labels (fun marks =>
        Carries marks (readable s.names known) result.1 (readable s.names known))
      ∧ result.2.Within (readable s.names known) := by
  rw [keep_eq] at kept
  obtain ⟨rfl, rfl⟩ := Prod.mk.inj (Except.ok.inj kept)
  refine ⟨h.imp fun marks carries => carries.append ?_, mem_readable_of_outside (.inr ?_)⟩
  · exact (carries_saveTo _ r).mono subset_rfl (Set.subset_insert ..)
  · omega

mutual

/-- **The code of an expression** that reads only variables that are known reads only slots that
were written. -/
theorem Expression.carries (e : Expression) {σ σ' : Supply} {result : List Line × Value}
    (done : e.compile s σ = .ok (result, σ')) (definite : e.definite known) :
    Chooses σ.labels σ'.labels (fun marks =>
        Carries marks (readable s.names known) result.1 (readable s.names known))
      ∧ result.2.Within (readable s.names known) := by
  cases e with
  | integer n span =>
    obtain ⟨rfl, rfl⟩ := Expression.compile_integer done
    exact ⟨.of fun _ => subset_rfl, trivial⟩
  | text text =>
    rw [Expression.compile_text] at done
    obtain ⟨rfl, rfl⟩ := Prod.mk.inj (Emit.pure_eq_ok.1 done)
    exact ⟨.of fun _ => subset_rfl, trivial⟩
  | «variable» name span =>
    obtain ⟨mem, rfl, rfl⟩ := Expression.compile_variable done
    exact ⟨.of fun _ => subset_rfl, mem_readable definite mem⟩
  | negate e =>
    obtain ⟨code, value, σ₁, compiled, ⟨k, -, rfl, rfl⟩ | kept⟩ := Expression.compile_negate done
    · exact ⟨(e.carries compiled definite).1, trivial⟩
    · obtain ⟨chooses, within⟩ := e.carries compiled definite
      exact (chooses.imp fun marks carries => carries.append ((carries_load within .t1).append
        (carries_plain (c := .compute ⟨.sub, false⟩ .t0 .zero .t1) rfl nofun nofun))).keep kept
  | isZero e =>
    obtain ⟨code, value, σ₁, compiled, ⟨k, -, rfl, rfl⟩ | kept⟩ := Expression.compile_isZero done
    · exact ⟨(e.carries compiled definite).1, trivial⟩
    · obtain ⟨chooses, within⟩ := e.carries compiled definite
      exact (chooses.imp fun marks carries => carries.append ((carries_load within .t1).append
        (carries_plain (c := .isZero .t0 .t1) rfl nofun nofun))).keep kept
  | binary op left right span =>
    rw [Expression.definite, Bool.and_eq_true] at definite
    obtain ⟨code, a, σ₁, code', b, σ₂, first, second, -, ⟨value, folded, rfl, rfl⟩ | kept⟩ :=
      Expression.compile_binary done
    · obtain ⟨-, -, k, -, -, rfl, -⟩ := Operator.operands_of_fold? folded
      exact ⟨((left.carries first definite.1).1.both (right.carries second definite.2).1).imp
        fun marks ⟨carries, carries'⟩ => carries.append carries', trivial⟩
    · obtain ⟨chooses, within⟩ := left.carries first definite.1
      obtain ⟨chooses', within'⟩ := right.carries second definite.2
      exact ((chooses.both chooses').imp fun marks ⟨carries, carries'⟩ =>
        (carries.append carries').append (carries_operator op within within')).keep kept
  | call callee arguments span =>
    obtain ⟨code, values, σ₁, -, compiled, ⟨host, -, kept⟩ | ⟨-, kept⟩⟩ := Expression.compile_call done
    · obtain ⟨chooses, within⟩ := carriesAll arguments compiled definite
      exact (chooses.imp fun marks carries => carries.append (carries_host host within)).keep kept
    · obtain ⟨chooses, within⟩ := carriesAll arguments compiled definite
      -- the call comes back to a label of its own, where what was known before is known again
      have call {marks : String → Set Int} {back : String}
          (same : marks back = readable s.names known) :
          Carries marks _ (Scope.callLines callee back values) _ := carries_call within same
      have chooses' := (chooses.both (.one (readable s.names known))).imp
        fun marks ⟨carries, same⟩ => carries.append (call same)
      exact Chooses.keep (σ := σ₁.labeled) chooses' kept
  | load base offset span =>
    obtain ⟨-, code, value, σ₁, compiled, kept⟩ := Expression.compile_load done
    obtain ⟨chooses, within⟩ := base.carries compiled definite
    exact (chooses.imp fun marks carries => carries.append ((carries_load within .t1).append
      (carries_plain (c := .load .t0 .t1 offset) rfl nofun nofun))).keep kept
  | broken before defect span => exact absurd done Expression.compile_broken_ne

theorem carriesAll (es : List Expression) {σ σ' : Supply} {result : List Line × List Value}
    (done : compileAll s es σ = .ok (result, σ')) (definite : definiteAll known es) :
    Chooses σ.labels σ'.labels (fun marks =>
        Carries marks (readable s.names known) result.1 (readable s.names known))
      ∧ ∀ value ∈ result.2, value.Within (readable s.names known) := by
  cases es with
  | nil =>
    obtain ⟨rfl, rfl⟩ := compileAll_nil done
    exact ⟨.of fun _ => subset_rfl, List.forall_mem_nil _⟩
  | cons e es =>
    obtain ⟨code, value, σ₁, rest, values, first, others, rfl⟩ := compileAll_cons done
    rw [definiteAll, Bool.and_eq_true] at definite
    obtain ⟨chooses, within⟩ := e.carries first definite.1
    obtain ⟨chooses', within'⟩ := carriesAll es others definite.2
    exact ⟨(chooses.both chooses').imp fun marks ⟨carries, carries'⟩ => carries.append carries',
      List.forall_mem_cons.2 ⟨within, within'⟩⟩

end

/-! ## Statements -/

mutual

/-- **The code of a statement** that reads only variables that are known, or that it has
assigned on all paths before, reads only slots that were written, and writes those that are known
after it. -/
theorem Statement.carries (inside : ∀ callee, s.ending ≠ functionLabel callee) (b : Statement)
    {known : Known} {σ σ' : Supply} {code : List Line} (done : b.compile s σ = .ok (code, σ')) (definite : b.definite known) :
    Chooses σ.labels σ'.labels fun marks =>
      marks s.ending ⊆ readable s.names (.of []) →
        Carries marks (readable s.names known) code (readable s.names (b.after known)) := by
  have least : readable s.names (.of []) ⊆ readable s.names known := readable_mono nofun
  cases b with
  | block body => exact carriesBlock (σ := σ.released) inside body (Statement.compile_block done) definite
  | whileLoop condition body =>
    obtain ⟨start, ending, test, value, σ₁, inner, tested, compiled, rfl, rfl, rfl⟩ :=
      Statement.compile_whileLoop done
    rw [Statement.definite, Bool.and_eq_true] at definite
    obtain ⟨chooses, within⟩ := condition.carries tested definite.1
    have chooses' := body.carries inside compiled definite.2
    -- what is known before the loop is what is written whenever it starts again, and at its end
    refine (((Chooses.one (readable s.names known)).both (.one (readable s.names known))).both
      (chooses.both chooses')).imp fun marks ⟨⟨first, last⟩, carries, carries'⟩ leaving => ?_
    have again : marks (numbered σ.labels) ⊆ readable s.names (body.after known) :=
      first.subset.trans (readable_mono (body.le_after known))
    have back := carries_jumpv (numbered_ne_functionLabel _) again Set.univ
    have ends : Carries marks Set.univ [place (numbered (σ.labels + 1))] (readable s.names known) :=
      .label (Set.subset_univ _) last.superset
    exact (((Carries.label first.subset first.superset).append carries).append
      (carries_jumpUnless within last.subset)).append (carries' leaving) |>.append (back.append ends)
  | ifThen condition positive =>
    obtain ⟨otherwise, test, value, σ₁, inner, tested, compiled, rfl, rfl⟩ :=
      Statement.compile_ifThen done
    rw [Statement.definite, Bool.and_eq_true] at definite
    obtain ⟨chooses, within⟩ := condition.carries tested definite.1
    have chooses' := positive.carries inside compiled definite.2
    refine ((Chooses.one (readable s.names known)).both (chooses.both chooses')).imp
      fun marks ⟨last, carries, carries'⟩ leaving => ?_
    have ends : Carries marks (readable s.names (positive.after known)) [place (numbered σ.labels)]
        (readable s.names known) :=
      .label (last.subset.trans (readable_mono (positive.le_after known))) last.superset
    exact ((carries.append (carries_jumpUnless within last.subset)).append (carries' leaving)).append
      ends
  | ifElse condition positive negative =>
    obtain ⟨otherwise, ending, test, value, σ₁, first, σ₂, second, tested, compiled, compiled', rfl,
      rfl, rfl⟩ := Statement.compile_ifElse done
    simp only [Statement.definite, Bool.and_eq_true] at definite
    obtain ⟨chooses, within⟩ := condition.carries tested definite.1.1
    have chooses₁ := positive.carries inside compiled definite.1.2
    have chooses₂ := negative.carries inside compiled' definite.2
    let after := readable s.names ((positive.after known).meet (negative.after known))
    refine ((((Chooses.one (readable s.names known)).both chooses).both chooses₁).both
      ((Chooses.one after).both chooses₂)).imp
        fun marks ⟨⟨⟨other, carries⟩, carries₁⟩, last, carries₂⟩ leaving => ?_
    -- what is known at the label at the end is known after both branches
    have left : after ⊆ readable s.names (positive.after known) :=
      readable_mono Known.meet_le_left
    have right : after ⊆ readable s.names (negative.after known) :=
      readable_mono Known.meet_le_right
    have past := carries_jumpv (numbered_ne_functionLabel _) (last.subset.trans left)
      Set.univ
    have begins : Carries marks Set.univ [place (numbered σ.labels)] (readable s.names known) :=
      .label (Set.subset_univ _) other.superset
    have ends : Carries marks (readable s.names (negative.after known)) [place (numbered σ₂.labels)]
        after := .label (last.subset.trans right) last.superset
    exact ((carries.append (carries_jumpUnless within other.subset)).append (carries₁ leaving)).append
      (past.append begins) |>.append (carries₂ leaving) |>.append ends
  | ret value =>
    cases value with
    | none =>
      obtain ⟨rfl, rfl⟩ := Statement.compile_ret_none done
      have zero : (Value.int 0).Within (readable s.names known) := trivial
      exact .of fun marks leaving => (carries_load zero .a0).append
        (carries_jumpv inside (leaving.trans least) _)
    | some e =>
      obtain ⟨inner, value, compiled, rfl⟩ := Statement.compile_ret_some done
      obtain ⟨chooses, within⟩ := e.carries compiled definite
      exact chooses.imp fun marks carries leaving => carries.append
        ((carries_load within .a0).append (carries_jumpv inside (leaving.trans least) _))
  | assign target e =>
    obtain ⟨inner, value, compiled, rfl⟩ := Statement.compile_assign done
    obtain ⟨chooses, within⟩ := e.carries compiled definite
    exact chooses.imp fun marks carries _ => carries.append ((carries_load within .t0).append
      ((carries_saveTo _ .t0).mono subset_rfl fun _ => readable_add))
  | store base offset span e =>
    obtain ⟨small, first, address, σ₁, second, value, compiled, compiled', rfl⟩ :=
      Statement.compile_store done
    rw [Statement.definite, Bool.and_eq_true] at definite
    obtain ⟨chooses, within⟩ := base.carries compiled definite.1
    obtain ⟨chooses', within'⟩ := e.carries compiled' definite.2
    refine (chooses.both chooses').imp fun marks ⟨carries, carries'⟩ _ => ?_
    have writes : Carries marks (readable s.names known)
        [line "store" [Register.t1, Register.t0, .int offset]] (readable s.names known) :=
      carries_plain (c := .store .t1 .t0 offset) rfl nofun nofun
    exact (carries.append carries').append ((carries_load within .t0).append
      ((carries_load within' .t1).append writes))
  | call e =>
    obtain ⟨value, compiled⟩ := Statement.compile_call done
    exact (e.carries compiled definite).1.imp fun marks carries _ => carries
  | skip =>
    obtain ⟨rfl, rfl⟩ := Statement.compile_skip done
    exact .of fun _ _ => subset_rfl
  | broken before defect span => exact absurd done Statement.compile_broken_ne

theorem carriesBlock (inside : ∀ callee, s.ending ≠ functionLabel callee) (bs : List Statement)
    {known : Known} {σ σ' : Supply} {code : List Line} (done : compileBlock s bs σ = .ok (code, σ')) (definite : definiteBlock known bs) :
    Chooses σ.labels σ'.labels fun marks =>
      marks s.ending ⊆ readable s.names (.of []) →
        Carries marks (readable s.names known) code (readable s.names (afterAll known bs)) := by
  cases bs with
  | nil =>
    obtain ⟨rfl, rfl⟩ := compileBlock_nil done
    exact .of fun _ _ => subset_rfl
  | cons b bs =>
    obtain ⟨first, σ₁, rest, compiled, compiled', rfl⟩ := compileBlock_cons done
    rw [definiteBlock, Bool.and_eq_true] at definite
    exact ((b.carries inside compiled definite.1).both (carriesBlock inside bs compiled' definite.2)).imp
      fun marks ⟨carries, carries'⟩ leaving => (carries leaving).append (carries' leaving)

end

end

/-! ## Functions and programs -/

/-- The parameters are written. -/
theorem carries_parameters {marks : String → Set Int} {names : List String}
    {registers : List Register} {parameters : List String}
    (few : parameters.length ≤ registers.length) (known : Known) :
    Carries marks (readable names known)
      (List.zipWith (fun r name => saveTo (slotOf names name) r) registers parameters)
      (readable names fun name => parameters.contains name || known name) := by
  induction parameters generalizing registers known with
  | nil =>
    rw [List.zipWith_nil_right]
    exact subset_rfl
  | cons name parameters ih =>
    cases registers with
    | nil => cases few
    | cons r registers =>
      have saved : Carries marks (readable names known) [saveTo (slotOf names name) r]
          (readable names (known.add name)) :=
        (carries_saveTo _ r).mono subset_rfl fun _ => readable_add
      refine saved.append ((ih (Nat.le_of_succ_le_succ few) (known.add name)).mono subset_rfl ?_)
      refine readable_mono fun other is => ?_
      simp only [Known.add, List.contains_cons, Bool.or_eq_true] at is ⊢
      exact or_left_comm.1 (or_assoc.1 is)

section

variable {constants : List String} {arities : List (String × Nat)} {σ σ' : Supply}
  {code : List Line}

/-- The code of a function reads only slots of variables that were written, if nothing is
taken to be written at its label. -/
theorem Function.carries {f : Function} (done : f.compile constants arities σ = .ok (code, σ'))
    (few : f.parameters.length ≤ maxParameters)
    (definite : f.body.all (·.definite (.of f.parameters))) :
    Chooses σ.labels σ'.labels fun marks =>
      marks (functionLabel f.name) = readable f.names (.of []) →
        Carries marks Set.univ code Set.univ := by
  obtain ⟨body, inner, found, compiled, rfl⟩ := Function.compile_eq_ok done
  rw [found, Option.all_some] at definite
  have chooses := body.carries (numbered_ne_functionLabel _) compiled definite
  refine ((Chooses.one (readable f.names (.of []))).both chooses).imp
    fun marks ⟨last, carries⟩ starts => ?_
  have least : readable f.names (.of []) ⊆ readable f.names (body.after (.of f.parameters)) :=
    readable_mono nofun
  have move (written : Set Int) (distance : Int) :
      Carries marks written [line "addv" [Register.sp, Register.sp, .int distance]] written :=
    carries_plain (c := .computeWith ⟨.add, false⟩ .sp .sp distance) rfl nofun nofun
  -- the lines of a function one after the other, with the slots written before and after each
  have enters : Carries marks Set.univ [place (functionLabel f.name)] (readable f.names (.of [])) :=
    .label (Set.subset_univ _) starts.superset
  have address : Carries marks (readable f.names (.of [])) [saveTo 0 .ra]
      (readable f.names (.of [])) :=
    (carries_saveTo _ _).mono subset_rfl (Set.subset_insert ..)
  have passed : Carries marks (readable f.names (.of []))
      (List.zipWith (fun r name => saveTo (slotOf f.names name) r) Register.arguments f.parameters)
      (readable f.names (.of f.parameters)) :=
    (carries_parameters few (.of [])).mono subset_rfl
      (readable_mono fun _ is => Bool.or_eq_true_iff.2 (.inl is))
  have known : (Value.int 0).Within (readable f.names (body.after (.of f.parameters))) := trivial
  have zero : Carries marks (readable f.names (body.after (.of f.parameters)))
      [(Value.int 0).load .a0] (readable f.names (body.after (.of f.parameters))) :=
    carries_load known .a0
  have ends : Carries marks (readable f.names (body.after (.of f.parameters)))
      [place (numbered σ.labels)] (readable f.names (.of [])) :=
    .label (last.subset.trans least) last.superset
  have kept : (Value.slot 0).Within (readable f.names (.of [])) :=
    mem_readable_of_outside (.inl rfl)
  have back : Carries marks (readable f.names (.of [])) [(Value.slot 0).load .ra]
      (readable f.names (.of [])) := carries_load kept .ra
  have returns : Carries marks (readable f.names (.of [])) [line "jump" [Register.ra]] Set.univ :=
    .instruction (c := .jump .ra) rfl ⟨nofun, nofun⟩ (leaves_of_ends (c := .jump .ra) trivial).superset
  exact ((enters.append ((move _ _).append (address.append passed))).append
    (carries last.subset)).append (zero.append (ends.append (back.append ((move _ _).append returns))))

theorem compileFunctions_carries {fs : List Function}
    (done : compileFunctions constants arities fs σ = .ok (code, σ'))
    (few : ∀ f ∈ fs, f.parameters.length ≤ maxParameters)
    (definite : ∀ f ∈ fs, f.body.all (·.definite (.of f.parameters))) :
    Chooses σ.labels σ'.labels fun marks =>
      (∀ f ∈ fs, marks (functionLabel f.name) = readable f.names (.of [])) →
        Carries marks Set.univ code Set.univ := by
  induction fs generalizing σ code with
  | nil =>
    obtain ⟨rfl, rfl⟩ := compileFunctions_nil done
    exact .of fun _ _ => subset_rfl
  | cons f fs ih =>
    obtain ⟨first, σ₁, rest, compiled, others, rfl⟩ := compileFunctions_cons done
    obtain ⟨few, few'⟩ := List.forall_mem_cons.1 few
    obtain ⟨definite, definite'⟩ := List.forall_mem_cons.1 definite
    exact ((f.carries compiled few definite).both (ih others few' definite')).imp
      fun marks ⟨carries, carries'⟩ starts =>
        (carries (starts f List.mem_cons_self)).append
          (carries' fun g mem => starts g (List.mem_cons_of_mem _ mem))

end

namespace Program

variable {p : Program} {l : Listing}

/-- **The listing of a program** that assigns its variables before it reads them reads only
slots of variables that were written in the same call. -/
theorem exists_carries (done : p.compile = .ok l) (definite : p.definite) :
    ∃ marks, (∀ f ∈ p.functions, marks (functionLabel f.name) = readable f.names (.of []))
      ∧ Carries marks Set.univ l.lines Set.univ := by
  obtain ⟨arities, code, σ', -, known, -, compiled, lines⟩ := compile_eq_ok done
  obtain ⟨-, chosen, has⟩ := (Chooses.one (a := 0) Set.univ).both (compileFunctions_carries compiled
    (few_of_aritiesFrom known) (List.all_eq_true.1 definite))
  -- what is written at a label is that of its number, or that of its function
  let marks (name : String) : Set Int := {distance | (∀ n, name = numbered n → distance ∈ chosen n)
    ∧ ∀ f ∈ p.functions, name = functionLabel f.name → distance ∈ readable f.names (.of [])}
  have atNumber (n : Nat) : marks (numbered n) = chosen n := by
    ext distance
    refine ⟨fun mem => mem.1 n rfl, fun mem => ⟨fun m same => ?_, fun f _ same => ?_⟩⟩
    · rwa [← numbered_injective same]
    · exact absurd same (numbered_ne_functionLabel _ _)
  have atFunction (f : Function) (mem : f ∈ p.functions) :
      marks (functionLabel f.name) = readable f.names (.of []) := by
    ext distance
    refine ⟨fun mem' => mem'.2 f mem rfl, fun mem' => ⟨fun n same => ?_, fun g among same => ?_⟩⟩
    · exact absurd same.symm (numbered_ne_functionLabel _ _)
    · rwa [List.inj_on_of_nodup_map (nodup_of_aritiesFrom known).1 among mem
        (functionLabel_injective same.symm)]
  obtain ⟨first, carries⟩ := has marks fun n _ _ => atNumber n
  refine ⟨marks, atFunction, ?_⟩
  have address : Carries marks Set.univ [line "setv" [Register.ra, .label (numbered 0)]] Set.univ :=
    carries_plain (c := .put .ra (.label (numbered 0))) rfl nofun nofun
  have call : Carries marks Set.univ [line "jumpv" [.label (functionLabel "main")]] Set.univ :=
    carries_plain (c := .jumpTo (.label (functionLabel "main"))) rfl nofun
      fun _ ⟨_, inside⟩ => inside "main" rfl
  have back : Carries marks Set.univ [place (numbered 0)] Set.univ :=
    .label (Set.subset_univ _) first.superset
  have exit : Carries marks Set.univ [line "exit" [Register.a0]] Set.univ :=
    carries_plain (c := .exit .a0) rfl nofun nofun
  have last : Carries marks Set.univ [line "exitv" [.int 0]] Set.univ :=
    carries_plain (c := .exitWith 0) rfl nofun nofun
  rw [lines]
  exact ((address.append (call.append (back.append exit))).append (carries atFunction)).append last

end Program

end Polyglot.B
