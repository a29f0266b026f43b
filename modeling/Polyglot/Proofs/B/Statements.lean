import Polyglot.Proofs.B.Expressions

/-!
# The code of statements

The code of a statement takes the machine to its end, with the frame right for the
variables as the statement leaves them, or to the end of the function with the value
that is returned in `a0` (`Statement.simulates`). Whatever it does, it leaves the return
address alone.

A loop is an induction on how often it may still go round. Each round ends with a jump
back, so the machine takes at least as many steps as there are rounds.
-/

namespace Polyglot.B

open Polyglot.Source
open Polyglot.Assembly (Line Listing Command Operand Operation)
open Polyglot.Machine (Register Setup View Memory Syscall)

mutual

/-- The variables that a statement assigns. -/
def Statement.targets : Statement → List String
  | .block body => targetsAll body
  | .whileLoop _ body => body.targets
  | .ifThen _ positive => positive.targets
  | .ifElse _ positive negative => positive.targets ++ negative.targets
  | .assign target _ => [target]
  | .ret _ | .store .. | .call _ | .skip | .broken .. => []

/-- The variables that statements assign. -/
def targetsAll : List Statement → List String
  | [] => []
  | b :: bs => b.targets ++ targetsAll bs

end

variable {x : Setup} {l : Listing} {s : Scope} {calls : Calls} {env : Env} {v v' : View}
  {names : List String} {j k m peak base last : Nat} {a : Int32}

/-- A variable is assigned by writing its slot. -/
theorem Frame.assign (frame : Frame x names peak base env v)
    (size : v.memory.size = x.config.memorySize) {target : String} (mem : target ∈ names) :
    Frame x names peak base (env.set target a) (v.store (base + 4 * slotOf names target) a) where
  sp := by
    rw [View.get_store]
    exact frame.sp
  low := frame.low
  high := frame.high
  mem name value eq := by
    unfold Env.set at eq
    split at eq
    · rename_i same
      exact same ▸ mem
    · exact frame.mem name value eq
  word name value eq := by
    have high := frame.high
    have le := slotOf_le mem
    unfold Env.set at eq
    split at eq
    · rename_i same
      obtain rfl := same
      obtain rfl := Option.some.inj eq
      refine View.word_store ?_
      rw [size]
      omega
    · rename_i other
      have mem' := frame.mem name value eq
      have ne : slotOf names name ≠ slotOf names target := fun same =>
        other (List.idxOf_inj mem' |>.1 (Nat.succ.inj same))
      refine (frame.word name value eq).setBytes_of_disjoint ?_
      rw [Machine.length_wordBytes, Machine.length_wordBytes]
      omega

@[simp] theorem length_jumpUnless {value : Value} {target : String} :
    (jumpUnless value target).length = 3 := rfl

/-- The lines that go to a label if a value is zero. -/
theorem goes_jumpUnless (assembled : l.assemble = .ok x.program) {value : Value} {target : String}
    (sp : (v.get .sp).toInt = base) (contains : l.Contains k (jumpUnless value target))
    (denotes : value.Denotes base last v a) (marks : l.Marks m target) :
    ∃ v', x.Goes 0 (l.before k) v (l.before (if a = 0 then m else k + 3)) v' ∧ Quiet v v' := by
  simp only [jumpUnless, Listing.contains_cons, Listing.contains_nil, and_true] at contains
  obtain ⟨load, compare, jump⟩ := contains
  have loaded := Value.goes_load assembled sp load (by decide) denotes
  have orders : l.Orders (k + 1) (.computeWith ⟨.eq, false⟩ .t0 .t0 0) := ⟨_, _, _, compare, rfl⟩
  have computed : Operation.compute? ⟨.eq, false⟩ ((v.set .t0 a).get .t0) (Int32.ofInt 0)
      = some (if a = 0 then 1 else 0) := by
    rw [View.get_set_self (by decide)]
    simp [Operation.compute?, Operation.finish, Machine.State.compute?]
  have compared := Listing.goes_computeWith assembled orders (by decide) (by decide) (by decide)
    computed
  have jumped := Listing.goes_jumpToIf (v := (v.set .t0 a).set .t0 (if a = 0 then 1 else 0))
    assembled ⟨_, _, _, jump, rfl⟩ marks (by decide)
  rw [View.get_set_self (by decide)] at jumped
  have quiet : Quiet v ((v.set .t0 a).set .t0 (if a = 0 then 1 else 0)) :=
    (Quiet.set (by decide)).trans (.set (by decide))
  refine ⟨_, ?_, quiet⟩
  by_cases zero : a = 0
  · simp only [zero, ↓reduceIte] at loaded compared jumped ⊢
    exact ((loaded.trans compared).trans jumped).mono (Nat.zero_le _)
  · simp only [zero, ↓reduceIte] at loaded compared jumped ⊢
    exact ((loaded.trans compared).trans jumped).mono (Nat.zero_le _)

/-- What the code of a statement leaves behind, for a frame at `base` and a function that
ends at the line `e`. -/
structure Executed (x : Setup) (l : Listing) (s : Scope) (peak base e k : Nat) (v : View)
    (flow : Flow) (n : Nat) (v' : View) : Prop where
  /-- The stack pointer is the same. -/
  sp : v'.get .sp = v.get .sp
  /-- The return address is the same, and everything above the frame. -/
  keeps : Memory.Keeps base (base + 4) (base + 4 * (1 + s.names.length + peak)) v.memory v'.memory
  /-- The machine is at the end of the code, or of the function with the result in its
  register. -/
  flow : match flow with
    | .next env => n = l.before k ∧ Frame x s.names peak base env v'
    | .left a => n = l.before e ∧ v'.get .a0 = a

/-- The end of the code may be told by another line at the same place. -/
theorem Executed.move {e k' n : Nat} {flow : Flow} (h : Executed x l s peak base e k v flow n v')
    (same : l.before k = l.before k') : Executed x l s peak base e k' v flow n v' where
  sp := h.sp
  keeps := h.keeps
  flow := by
    cases flow with
    | next env => exact ⟨h.flow.1.trans same, h.flow.2⟩
    | left a => exact h.flow

theorem Executed.trans {e k' n : Nat} {flow : Flow} {v'' : View} (sp : v'.get .sp = v.get .sp)
    (keeps : Memory.Keeps base (base + 4) (base + 4 * (1 + s.names.length + peak))
      v.memory v'.memory)
    (second : Executed x l s peak base e k' v' flow n v'') :
    Executed x l s peak base e k' v flow n v'' :=
  ⟨second.sp.trans sp, keeps.trans second.keeps, second.flow⟩

/-- What the code of an expression leaves alone, that of a statement may. -/
theorem Evaluated.keeps_all {used k' n : Nat} {value : Value}
    (h : Evaluated l s peak base used k' last value v a n v') :
    Memory.Keeps base (base + 4) (base + 4 * (1 + s.names.length + peak)) v.memory v'.memory :=
  h.keeps.widen (by omega) (Nat.le_refl _)

/-- What a test leaves behind: the machine is at the line `kz` if it gives zero, and else
at the line `kn`. -/
structure Tested (x : Setup) (l : Listing) (s : Scope) (peak base kz kn : Nat) (env : Env)
    (v : View) (a : Int32) (n : Nat) (v' : View) : Prop where
  /-- The machine is where it should be. -/
  done : n = l.before (if a = 0 then kz else kn)
  /-- The stack pointer is the same. -/
  sp : v'.get .sp = v.get .sp
  /-- The return address is the same, and everything above the frame. -/
  keeps : Memory.Keeps base (base + 4) (base + 4 * (1 + s.names.length + peak)) v.memory v'.memory
  /-- The frame is still right. -/
  frame : Frame x s.names peak base env v'

/-- A condition, and the lines that go to a label if it gives zero. -/
theorem test_simulates (assembled : l.assemble = .ok x.program)
    (callable : Callable x l j calls s.arities) {condition : Expression} {σ σ' : Supply}
    {test : List Line} {value : Value} {target : String}
    (compiled : condition.compile s σ = .ok ((test, value), σ')) (contains : l.Contains k test)
    (jumps : l.Contains (k + test.length) (jumpUnless value target)) (marks : l.Marks m target)
    (frame : Frame x s.names peak base env v) (le : σ'.peak ≤ peak) :
    Simulates x j (l.before k) v (condition.eval calls env)
      (Tested x l s peak base m (k + test.length + 3) env v) := by
  refine (condition.simulates assembled callable compiled contains frame le).andGoes
    fun a n v₁ _ h => ?_
  obtain rfl := h.done
  have frame₁ := frame.keep h.sp h.keeps (by omega)
  obtain ⟨v₂, goes, quiet⟩ := goes_jumpUnless assembled frame₁.sp jumps h.denotes marks
  refine ⟨_, v₂, goes, quiet.output, rfl, quiet.sp.trans h.sp, h.keeps_all.trans quiet.keeps, ?_⟩
  exact frame₁.quiet quiet

/-- **A loop.** The machine is back at its start after each round, and has taken at least
one step. -/
theorem iterate_simulates {test : Env → Run Int32} {body : Env → Run Flow} {e kb kj kz : Nat}
    (testing : ∀ env v, Frame x s.names peak base env v →
      Simulates x j (l.before k) v (test env) (Tested x l s peak base kz kb env v))
    (doing : ∀ env v, Frame x s.names peak base env v →
      Simulates x j (l.before kb) v (body env) (Executed x l s peak base e kj v))
    (back : ∀ v, x.Goes 1 (l.before kj) v (l.before k) v) (rounds : Nat) (le : rounds ≤ j)
    (frame : Frame x s.names peak base env v) :
    Simulates x rounds (l.before k) v (iterate test body rounds env)
      (Executed x l s peak base e kz v) := by
  induction rounds generalizing env v with
  | zero => exact .exhausted
  | succ rounds ih =>
    refine ((testing env v frame).mono le).andThen fun a n v₁ h => ?_
    obtain rfl := h.done
    by_cases zero : a = 0
    · simp only [zero, ↓reduceIte]
      exact .give ⟨h.sp, h.keeps, rfl, h.frame⟩
    · simp only [zero, ↓reduceIte]
      refine ((doing env v₁ h.frame).mono le).andThen fun flow n v₂ h' => ?_
      cases flow with
      | left a => exact .give ⟨h'.sp.trans h.sp, h.keeps.trans h'.keeps, h'.flow⟩
      | next env' =>
        obtain ⟨rfl, frame'⟩ := h'.flow
        have rest := (ih (Nat.le_of_succ_le le) frame').weaken fun flow n v₃ h'' =>
          h''.trans (h'.sp.trans h.sp) (h.keeps.trans h'.keeps)
        rw [Nat.add_comm]
        exact .goes (back v₂) rfl rest

/-- The lines that have the host print a value, with the temporary for what the host answers. -/
theorem simulates_print (assembled : l.assemble = .ok x.program) (frame : Frame x s.names peak base env v)
    {value : Value} {e t : Nat} (first : s.names.length < t) (le : t ≤ s.names.length + peak)
    (contains : l.Contains k (Scope.hostLines .printi [value] ++ [saveTo t .a0]))
    (denotes : value.Denotes base last v a) :
    Simulates x j (l.before k) v (.print a) fun _ =>
      Executed x l s peak base e (k + 3) v (.next env) := by
  simp only [Scope.hostLines, List.zipWith_cons_cons, List.zipWith_nil_left, List.cons_append,
    List.nil_append, Listing.contains_cons, Listing.contains_nil, and_true] at contains
  obtain ⟨load, call, save⟩ := contains
  have loaded := Value.goes_load assembled frame.sp load (by decide) denotes
  have printed := Listing.goes_printi (v := v.set .a1 a) assembled ⟨_, _, _, call, rfl⟩
  rw [View.get_set_self (by decide)] at printed
  -- what was printed is not quiet, so the view is followed by hand from here on
  have sp : (((v.set .a1 a).set .a0 3).print a).get .sp = v.get .sp := by
    rw [View.get_print, View.get_set_of_ne (by decide), View.get_set_of_ne (by decide)]
  have same : (((v.set .a1 a).set .a0 3).print a).memory = v.memory := View.memory_print
  have output : (((v.set .a1 a).set .a0 3).print a).output = Machine.State.printWord v.output a := rfl
  generalize ((v.set .a1 a).set .a0 3).print a = v₁ at printed sp same output
  have unchanged : Memory.Keeps base (base + 4 * (1 + s.names.length)) 0 v.memory v₁.memory := .of_eq same
  have frame₁ : Frame x s.names peak base env v₁ := frame.keep sp unchanged (Nat.le_refl _)
  have saved := goes_saveTo assembled frame₁ save (by decide) le
  have keeps : Memory.Keeps base (base + 4 * (1 + s.names.length))
      (base + 4 * (1 + s.names.length + peak)) v₁.memory
      (v₁.store (base + 4 * t) (v₁.get .a0)).memory :=
    View.keeps_store (by omega) (by omega)
  refine .print (((loaded.trans printed).trans saved).mono (Nat.zero_le _))
    (View.output_store.trans output) ⟨View.get_store.trans sp, ?_, rfl, ?_⟩
  · exact same ▸ keeps.widen (by omega) (Nat.le_refl _)
  · exact frame₁.keep View.get_store keeps (Nat.le_refl _)

/-- A call whose value is not used. -/
theorem perform_simulates (assembled : l.assemble = .ok x.program)
    (callable : Callable x l j calls s.arities) {e : Nat} {call : Expression} {σ σ' : Supply}
    {code : List Line} {value : Value} (compiled : call.compile s σ = .ok ((code, value), σ'))
    (contains : l.Contains k code) (frame : Frame x s.names peak base env v)
    (le : σ'.peak ≤ peak) :
    Simulates x j (l.before k) v (call.perform calls env) fun _ =>
      Executed x l s peak base e (k + code.length) v (.next env) := by
  unfold Expression.perform
  split
  · rename_i argument span
    obtain ⟨code', values, σ₁, -, compiled', ⟨host, known, kept⟩ | ⟨unknown, -⟩⟩ :=
      Expression.compile_call compiled
    · obtain rfl : Syscall.printi = host := Option.some.inj known
      obtain ⟨inner, a, σ₂, rest, others, first, last, eq⟩ := compileAll_cons compiled'
      obtain ⟨eq', rfl⟩ := compileAll_nil last
      obtain ⟨rfl, rfl⟩ := Prod.mk.inj eq'
      obtain ⟨rfl, rfl⟩ := Prod.mk.inj eq
      obtain ⟨rfl, rfl, rfl⟩ := eq_of_keep kept
      have peak_le : σ₁.peak ≤ peak ∧ σ₁.temporaries + 1 ≤ peak := Nat.max_le.1 le
      rw [List.append_nil, List.append_assoc, Listing.contains_append] at contains
      refine (argument.simulates assembled callable first contains.1 frame peak_le.1).andThen
        fun word n v₁ h => ?_
      obtain rfl := h.done
      have frame₁ := frame.keep h.sp h.keeps (by omega)
      refine (simulates_print (e := e) assembled frame₁ (by omega) (by omega) contains.2 h.denotes).weaken
        fun _ n v₂ h' => ?_
      simpa [Scope.hostLines, Nat.add_assoc] using h'.trans h.sp h.keeps_all
    · cases unknown
  · refine (call.simulates assembled callable compiled contains frame le).andThen
      fun a n v₁ h => .give ?_
    exact ⟨h.sp, h.keeps_all, h.done, frame.keep h.sp h.keeps (by omega)⟩

/-! ## The lines of statements -/

/-- The lines that put a value into the slot of a variable. -/
theorem simulates_assign (assembled : l.assemble = .ok x.program) (frame : Frame x s.names peak base env v)
    {target : String} {value : Value} {e : Nat} (mem : target ∈ s.names)
    (contains : l.Contains k [value.load .t0, saveTo (s.slot target) .t0])
    (denotes : value.Denotes base last v a) :
    Simulates x j (l.before k) v (.give (.next (env.set target a)))
      (Executed x l s peak base e (k + 2) v) := by
  simp only [Listing.contains_cons, Listing.contains_nil, and_true] at contains
  refine .of_sound fun sound => ?_
  have quiet : Quiet v (v.set .t0 a) := .set (by decide)
  have frame₁ := frame.quiet quiet
  have high := frame.high
  have le : s.slot target ≤ s.names.length := slotOf_le mem
  have positive : 0 < s.slot target := Nat.succ_pos _
  have loaded := Value.goes_load assembled frame.sp contains.1 (by decide) denotes
  have saved := goes_saveTo assembled frame₁ contains.2 (by decide) (by omega)
  rw [View.get_set_self (by decide)] at saved
  refine .goes_free (loaded.trans saved) (View.output_store.trans quiet.output)
    (.give ⟨View.get_store.trans quiet.sp, ?_, rfl, frame₁.assign sound.size mem⟩)
  exact quiet.keeps.trans (View.keeps_store (by omega) (by omega))

/-- The lines that return a value. -/
theorem simulates_return (assembled : l.assemble = .ok x.program) (ending : l.Marks m s.ending)
    {value : Value} {e : Nat} (sp : (v.get .sp).toInt = base)
    (contains : l.Contains k [value.load .a0, line "jumpv" [.label s.ending]])
    (denotes : value.Denotes base last v a) :
    Simulates x j (l.before k) v (.give (.left a)) (Executed x l s peak base m e v) := by
  simp only [Listing.contains_cons, Listing.contains_nil, and_true] at contains
  have loaded := Value.goes_load assembled sp contains.1 (by decide) denotes
  have jumped := Listing.goes_jumpTo (v := v.set .a0 a) assembled ⟨_, _, _, contains.2, rfl⟩ ending
  have quiet : Quiet v (v.set .a0 a) := .set (by decide)
  exact .goes_free (loaded.trans jumped) quiet.output
    (.give ⟨quiet.sp, quiet.keeps, rfl, View.get_set_self (by decide)⟩)

/-- A test, and what is done in either case. -/
theorem simulates_choice {test : Run Int32} {zero other : Run Flow} {n e kz kn : Nat}
    (testing : Simulates x j n v test (Tested x l s peak base kz kn env v))
    (ifZero : ∀ v₁, Frame x s.names peak base env v₁ →
      Simulates x j (l.before kz) v₁ zero (Executed x l s peak base e m v₁))
    (ifOther : ∀ v₁, Frame x s.names peak base env v₁ →
      Simulates x j (l.before kn) v₁ other (Executed x l s peak base e m v₁)) :
    Simulates x j n v (test.andThen fun a => if a = 0 then zero else other)
      (Executed x l s peak base e m v) := by
  refine testing.andThen fun a n v₁ h => ?_
  obtain rfl := h.done
  by_cases is : a = 0
  · rw [if_pos is, if_pos is]
    exact (ifZero v₁ h.frame).weaken fun _ _ _ h' => h'.trans h.sp h.keeps
  · rw [if_neg is, if_neg is]
    exact (ifOther v₁ h.frame).weaken fun _ _ _ h' => h'.trans h.sp h.keeps

/-- A jump after the code of a statement. -/
theorem simulates_jump {run : Run Flow} {n e kj : Nat}
    (jump : ∀ v, x.Goes 0 (l.before kj) v (l.before m) v)
    (body : Simulates x j n v run (Executed x l s peak base e kj v)) :
    Simulates x j n v run (Executed x l s peak base e m v) := by
  refine body.andGoes fun flow n' v' _ h => ?_
  cases flow with
  | left a => exact ⟨n', v', .refl, rfl, h.sp, h.keeps, h.flow⟩
  | next env' =>
    obtain ⟨rfl, frame⟩ := h.flow
    exact ⟨_, v', jump v', rfl, h.sp, h.keeps, rfl, frame⟩

/-! ## The theorem -/

mutual

/-- **The code of a statement** does what the statement does. -/
theorem Statement.simulates (assembled : l.assemble = .ok x.program)
    (callable : Callable x l j calls s.arities) {final : Nat} (ending : l.Marks final s.ending)
    (b : Statement) {σ σ' : Supply} {code : List Line} {k : Nat} {v : View} {env : Env}
    (compiled : b.compile s σ = .ok (code, σ')) (contains : l.Contains k code)
    (frame : Frame x s.names peak base env v) (le : σ'.peak ≤ peak)
    (targets : ∀ name ∈ b.targets, name ∈ s.names) :
    Simulates x j (l.before k) v (b.exec calls j env)
      (Executed x l s peak base final (k + code.length) v) := by
  cases b with
  | block body =>
    exact simulatesBlock assembled callable ending body (Statement.compile_block compiled) contains
      frame le targets
  | skip =>
    obtain ⟨rfl, rfl⟩ := Statement.compile_skip compiled
    exact .give ⟨rfl, .refl, rfl, frame⟩
  | broken before defect span => exact .undefined
  | store address offset span e => exact .undefined
  | assign target e =>
    obtain ⟨inner, value, compiled', rfl⟩ := Statement.compile_assign compiled
    rw [Listing.contains_append] at contains
    refine (e.simulates assembled callable compiled' contains.1 frame le).andThen fun a n v₁ h => ?_
    obtain rfl := h.done
    rw [List.length_append, ← Nat.add_assoc]
    exact (simulates_assign assembled (frame.keep h.sp h.keeps (by omega))
      (targets target (List.mem_singleton_self _)) contains.2 h.denotes).weaken
      fun _ _ _ h' => h'.trans h.sp h.keeps_all
  | ret value =>
    cases value with
    | none =>
      obtain ⟨rfl, rfl⟩ := Statement.compile_ret_none compiled
      have denotes : (Value.int 0).Denotes base 0 v 0 := rfl
      exact simulates_return assembled ending frame.sp contains denotes
    | some e =>
      obtain ⟨inner, value, compiled', rfl⟩ := Statement.compile_ret_some compiled
      rw [Listing.contains_append] at contains
      refine (e.simulates assembled callable compiled' contains.1 frame le).andThen fun a n v₁ h => ?_
      obtain rfl := h.done
      have sp := (frame.keep h.sp h.keeps (by omega)).sp
      exact (simulates_return assembled ending sp contains.2 h.denotes).weaken
        fun _ _ _ h' => h'.trans h.sp h.keeps_all
  | call e =>
    obtain ⟨value, compiled'⟩ := Statement.compile_call compiled
    exact (perform_simulates (e := final) assembled callable compiled' contains frame le).andThen
      fun _ n v₁ h => .give h
  | ifThen condition positive =>
    obtain ⟨otherwise, test, value, σ₁, inner, tested, compiled', rfl, -⟩ :=
      Statement.compile_ifThen compiled
    simp only [Listing.contains_append, Listing.contains_cons, Listing.contains_nil, and_true,
      List.length_append, length_jumpUnless, ← Nat.add_assoc] at contains
    obtain ⟨⟨⟨testing, jumps⟩, inside⟩, mark⟩ := contains
    have marks : l.Marks _ otherwise := ⟨_, mark⟩
    have peak_le := positive.peak_le compiled'
    have length : k + (test ++ jumpUnless value otherwise ++ inner ++ [place otherwise]).length
        = k + test.length + 3 + inner.length + 1 := by
      simp only [List.length_append, length_jumpUnless, List.length_singleton, ← Nat.add_assoc]
    have next := marks.before_succ assembled
    rw [length]
    refine simulates_choice (test_simulates assembled callable tested testing jumps marks frame
      (Nat.le_trans peak_le le)) (fun v₁ frame₁ => ?_) fun v₁ frame₁ => ?_
    · exact .give ⟨rfl, .refl, next.symm, frame₁⟩
    · exact (positive.simulates assembled callable ending compiled' inside frame₁ le targets).weaken
        fun _ _ _ h => h.move next.symm
  | ifElse condition positive negative =>
    obtain ⟨otherwise, after, test, value, σ₁, first, σ₂, second, tested, compiled₁, compiled₂, rfl,
      -⟩ := Statement.compile_ifElse compiled
    simp only [List.append_assoc, List.cons_append, List.nil_append, Listing.contains_append,
      Listing.contains_cons, Listing.contains_nil, and_true, length_jumpUnless] at contains
    obtain ⟨testing, jumps, inside, jump, mark, inside', mark'⟩ := contains
    have marks : l.Marks _ otherwise := ⟨_, mark⟩
    have marks' : l.Marks _ after := ⟨_, mark'⟩
    have peak_le := positive.peak_le compiled₁
    have peak_le' := negative.peak_le (σ := σ₂.labeled) compiled₂
    have length : k + (test ++ jumpUnless value otherwise ++ first
          ++ [line "jumpv" [.label after], place otherwise] ++ second ++ [place after]).length
        = k + test.length + 3 + first.length + 1 + 1 + second.length + 1 := by
      simp only [List.length_append, length_jumpUnless, List.length_cons, List.length_nil,
        ← Nat.add_assoc]
    have next := marks.before_succ assembled
    have next' := marks'.before_succ assembled
    rw [length]
    refine simulates_choice (test_simulates assembled callable tested testing jumps marks frame
      (Nat.le_trans peak_le (Nat.le_trans peak_le' le))) (fun v₁ frame₁ => ?_) fun v₁ frame₁ => ?_
    · rw [← next]
      exact (negative.simulates assembled callable ending compiled₂ inside' frame₁ le
        fun name mem => targets name (List.mem_append_right _ mem)).weaken
        fun _ _ _ h => h.move next'.symm
    · -- the first branch ends with a jump past the other one
      have jumped (v : View) := Listing.goes_jumpTo (v := v) assembled ⟨_, _, _, jump, rfl⟩ marks'
      exact (simulates_jump (fun v => (jumped v).mono (Nat.zero_le _))
        (positive.simulates assembled callable ending compiled₁ inside frame₁ (Nat.le_trans peak_le' le)
          fun name mem => targets name (List.mem_append_left _ mem))).weaken
        fun _ _ _ h => h.move next'.symm
  | whileLoop condition body =>
    obtain ⟨start, after, test, value, σ₁, inner, tested, compiled', rfl, -⟩ :=
      Statement.compile_whileLoop compiled
    simp only [List.append_assoc, List.cons_append, List.nil_append, Listing.contains_append,
      Listing.contains_cons, Listing.contains_nil, and_true, length_jumpUnless] at contains
    obtain ⟨mark, testing, jumps, inside, jump, mark'⟩ := contains
    have marks : l.Marks _ start := ⟨_, mark⟩
    have marks' : l.Marks _ after := ⟨_, mark'⟩
    -- the test is compiled before the body, so its peak is not above that of the body
    have peak_le := body.peak_le compiled'
    have length : k + ([place start] ++ test ++ jumpUnless value after ++ inner
          ++ [line "jumpv" [.label start], place after]).length
        = k + 1 + test.length + 3 + inner.length + 1 + 1 := by
      simp only [List.length_append, length_jumpUnless, List.length_cons, List.length_nil,
        ← Nat.add_assoc]
    have next := marks.before_succ assembled
    have next' := marks'.before_succ assembled
    have tests (env : Env) (v : View) (frame : Frame x s.names peak base env v) :=
      next ▸ test_simulates (j := j) assembled callable tested testing jumps marks' frame
        (Nat.le_trans peak_le le)
    have does (env : Env) (v : View) (frame : Frame x s.names peak base env v) :=
      body.simulates assembled callable ending compiled' inside frame le targets
    have back (v : View) : x.Goes 1 _ v (l.before k) v :=
      Listing.goes_jumpTo assembled ⟨_, _, _, jump, rfl⟩ marks
    rw [length]
    exact (iterate_simulates tests does back j (Nat.le_refl j) frame).weaken
      fun flow n v' h => h.move next'.symm

theorem simulatesBlock (assembled : l.assemble = .ok x.program)
    (callable : Callable x l j calls s.arities) {final : Nat} (ending : l.Marks final s.ending)
    (bs : List Statement) {σ σ' : Supply} {code : List Line} {k : Nat} {v : View} {env : Env}
    (compiled : compileBlock s bs σ = .ok (code, σ')) (contains : l.Contains k code)
    (frame : Frame x s.names peak base env v) (le : σ'.peak ≤ peak)
    (targets : ∀ name ∈ targetsAll bs, name ∈ s.names) :
    Simulates x j (l.before k) v (execAll calls j bs env)
      (Executed x l s peak base final (k + code.length) v) := by
  cases bs with
  | nil =>
    obtain ⟨rfl, rfl⟩ := compileBlock_nil compiled
    exact .give ⟨rfl, .refl, rfl, frame⟩
  | cons b bs =>
    obtain ⟨first, σ₁, rest, compiled₁, compiled₂, rfl⟩ := compileBlock_cons compiled
    rw [Listing.contains_append] at contains
    refine (b.simulates assembled callable ending compiled₁ contains.1 frame
      (Nat.le_trans (peak_le_all bs compiled₂) le)
      fun name mem => targets name (List.mem_append_left _ mem)).andThen fun flow n v₁ h => ?_
    cases flow with
    | left a => exact .give ⟨h.sp, h.keeps, h.flow⟩
    | next env₁ =>
      obtain ⟨rfl, frame₁⟩ := h.flow
      refine (simulatesBlock assembled callable ending bs compiled₂ contains.2 frame₁ le
        fun name mem => targets name (List.mem_append_right _ mem)).weaken fun flow n v₂ h' => ?_
      rw [List.length_append, ← Nat.add_assoc]
      exact h'.trans h.sp h.keeps

end

end Polyglot.B
