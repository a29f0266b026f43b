import Mathlib.Data.List.Forall2
import Polyglot.Proofs.B.Emission
import Polyglot.Proofs.B.Frames
import Polyglot.Proofs.B.Simulation

/-!
# The code of expressions

The code of an expression takes the machine to its end, with the value of the
expression where the compiler says it is (`Expression.simulates`). It leaves alone the
slots of the variables, and the temporaries that were in use when it was compiled;
that is why the value of a left operand is still there after the right one.

What calls do is taken for granted here (`Callable`). It is the induction hypothesis of
the theorem about functions.
-/

namespace Polyglot.B

open Polyglot.Source
open Polyglot.Assembly (Line Listing Command Operand Operation)
open Polyglot.Machine (Register Setup View Memory Syscall)

/-! ## Operators -/

/-- The operation of the assembly language for an operator. -/
def Operator.operation : Operator → Operation
  | .add => ⟨.add, false⟩
  | .sub => ⟨.sub, false⟩
  | .mul => ⟨.mul, false⟩
  | .div => ⟨.div, false⟩
  | .mod => ⟨.mod, false⟩
  | .or => ⟨.or, false⟩
  | .and => ⟨.and, false⟩
  | .eq => ⟨.eq, false⟩
  | .ne => ⟨.eq, true⟩
  | .gt => ⟨.gt, false⟩
  | .ge => ⟨.ge, false⟩
  | .lt => ⟨.lt, false⟩
  | .le => ⟨.le, false⟩

/-- The operation has the result of the operator. -/
theorem Operator.compute?_operation (op : Operator) (a b : Int32) :
    op.operation.compute? a b = op.compute? a b := by
  cases op with
  | add | sub | mul | or | and => rfl
  | div | mod =>
    simp only [operation, Operation.compute?, Machine.State.compute?, compute?]
    split <;> rfl
  | eq | ne =>
    by_cases h : a = b <;>
      simp [operation, Operation.compute?, Operation.finish, Machine.State.compute?, compute?,
        truth, h]
  | gt | ge | lt | le =>
    simp [operation, Operation.compute?, Operation.finish, Machine.State.compute?, compute?,
      truth]

theorem Operator.ofLine_mnemonic (op : Operator) (d a b : Register) :
    Command.ofLine op.mnemonic [.register d, .register a, .register b] .start
      = .ok (.compute op.operation d a b) := by
  cases op <;> rfl

theorem Operator.ofLine_mnemonic_with (op : Operator) (d a : Register) (right : Int) :
    Command.ofLine (op.mnemonic ++ "v") [.register d, .register a, .int right] .start
      = .ok (.computeWith op.operation d a right) := by
  cases op <;> rfl

/-- What is known of an operator is its result. -/
theorem Operator.fold?_eq_some {op : Operator} {left right value : Value} {base base' last last' : Nat}
    {v v' : View} {a b : Int32} (folded : op.fold? left right = some value)
    (first : left.Denotes base last v a) (second : right.Denotes base' last' v' b) :
    ∃ c, value = .int c ∧ op.compute? a b = some c := by
  obtain ⟨a', b', c, rfl, rfl, rfl, computed⟩ := op.operands_of_fold? folded
  obtain rfl : a' = a := first
  obtain rfl : b' = b := second
  exact ⟨c, rfl, computed⟩

/-! ## Moving values -/

/-- Whether a view differs from another one in nothing but registers other than the stack
pointer. -/
structure Quiet (v v' : View) : Prop where
  /-- The stack pointer is the same. -/
  sp : v'.get .sp = v.get .sp
  /-- The memory is the same. -/
  memory : v'.memory = v.memory
  /-- The output is the same. -/
  output : v'.output = v.output

namespace Quiet

variable {v v' v'' : View} {r : Register} {a : Int32}

theorem trans (first : Quiet v v') (second : Quiet v' v'') : Quiet v v'' :=
  ⟨second.sp.trans first.sp, second.memory.trans first.memory, second.output.trans first.output⟩

theorem set (ne : r ≠ .sp) : Quiet v (v.set r a) :=
  ⟨View.get_set_of_ne (Ne.symm ne), rfl, rfl⟩

theorem keeps (h : Quiet v v') {base low high : Nat} :
    Memory.Keeps base low high v.memory v'.memory := by
  rw [h.memory]
  exact .refl

end Quiet

/-- A frame stays right if the memory is left alone. -/
theorem Frame.quiet {x : Setup} {names : List String} {peak base : Nat} {env : Env} {v v' : View}
    (h : Frame x names peak base env v) (quiet : Quiet v v') : Frame x names peak base env v' :=
  have keeps : Memory.Keeps base (base + 4 * (1 + names.length)) 0 v.memory v'.memory := quiet.keeps
  h.keep quiet.sp keeps (Nat.le_refl _)

variable {x : Setup} {l : Listing} {s : Scope} {calls : Calls} {env : Env} {v v' : View}
  {names : List String} {j k peak base last : Nat} {a : Int32}

/-- A value is where it was as long as the memory is. -/
theorem Value.Denotes.quiet {value : Value} (h : value.Denotes base last v a) (quiet : Quiet v v') :
    value.Denotes base last v' a := by
  cases value with
  | slot n =>
    refine ⟨h.1, ?_⟩
    rw [View.Word, quiet.memory]
    exact h.2
  | int value => exact h
  | constant index => exact h

/-- Whether the line that puts a value into a register puts a word there, from this view on. -/
def Value.Loads (x : Setup) (l : Listing) (v : View) (a : Int32) (value : Value) : Prop :=
  ∀ (k : Nat) (r : Register), l.lines[k]? = some (value.load r) → r ≠ .pc →
    x.Goes 1 (l.before k) v (l.before (k + 1)) (v.set r a)

/-- A value that is where it is said to be is put into registers from there. -/
theorem Value.Denotes.loads (assembled : l.assemble = .ok x.program) {value : Value}
    (sp : (v.get .sp).toInt = base) (h : value.Denotes base last v a) : value.Loads x l v a :=
  fun _ _ there ne => Value.goes_load assembled sp there ne h

/-- Values are put into registers, the first into the first. -/
theorem goes_loads (assembled : l.assemble = .ok x.program) {registers : List Register}
    {values : List Value} {as : List Int32} (sp : (v.get .sp).toInt = base)
    (contains : l.Contains k (List.zipWith Value.load registers values))
    (distinct : registers.Nodup) (free : ∀ r ∈ registers, r ≠ .pc ∧ r ≠ .sp ∧ r ≠ .zero)
    (denote : List.Forall₂ (fun value a => value.Denotes base last v a) values as) :
    ∃ v', x.Goes 0 (l.before k) v
        (l.before (k + (List.zipWith Value.load registers values).length)) v'
      ∧ Quiet v v'
      ∧ (∀ (i : Nat) r a, registers[i]? = some r → as[i]? = some a → v'.get r = a)
      ∧ ∀ r, r ∉ registers → v'.get r = v.get r := by
  induction registers generalizing v values as k with
  | nil =>
    exact ⟨v, .refl, ⟨rfl, rfl, rfl⟩, fun _ _ _ there => by simp at there, fun _ _ => rfl⟩
  | cons r registers ih =>
    cases denote with
    | nil => exact ⟨v, .refl, ⟨rfl, rfl, rfl⟩, fun _ _ _ _ there => by simp at there, fun _ _ => rfl⟩
    | @cons value a values as denotes denote =>
      rw [List.zipWith_cons_cons, Listing.contains_cons] at contains
      obtain ⟨fresh, distinct⟩ := List.nodup_cons.1 distinct
      obtain ⟨ne, ne', nonzero⟩ := free r List.mem_cons_self
      have first := Value.goes_load assembled sp contains.1 ne denotes
      have quiet : Quiet v (v.set r a) := .set ne'
      obtain ⟨v', rest, quiet', loaded, others⟩ :=
        ih (v := v.set r a) (quiet.sp ▸ sp) contains.2 distinct
          (fun r mem => free r (List.mem_cons_of_mem _ mem))
          (denote.imp fun _ _ denotes => denotes.quiet quiet)
      refine ⟨v', ?_, quiet.trans quiet', ?_, ?_⟩
      · rw [List.zipWith_cons_cons, List.length_cons, Nat.add_comm _ 1, ← Nat.add_assoc]
        exact (first.trans rest).mono (Nat.zero_le _)
      · rintro (_ | i) r' a' there there'
        · obtain rfl := Option.some.inj there
          obtain rfl := Option.some.inj there'
          rw [others r fresh, View.get_set_self nonzero]
        · exact loaded i r' a' there there'
      · intro r' outside
        rw [List.mem_cons, not_or] at outside
        rw [others r' outside.2, View.get_set_of_ne outside.1]

/-- The lines of an operator leave its result in `t0`, or come to a division by zero. -/
theorem Operator.lines_spec (assembled : l.assemble = .ok x.program) (op : Operator)
    {left right : Value} {b : Int32} (contains : l.Contains k (op.lines left right))
    (first : left.Loads x l v a) (second : right.Loads x l (v.set .t1 a) b)
    (number : ∀ n, right = .int n → n = b) :
    match op.compute? a b with
    | some c => ∃ v', x.Goes 0 (l.before k) v (l.before (k + (op.lines left right).length)) v'
        ∧ Quiet v v' ∧ v'.get .t0 = c
    | none => x.Faults (l.before k) v v.output := by
  have quiet : Quiet v (v.set .t1 a) := .set (by decide)
  -- whether the right operand is a number says which form the instruction has
  by_cases known : ∃ n, right = .int n
  · obtain ⟨n, rfl⟩ := known
    obtain rfl := number n rfl
    simp only [lines, Listing.contains_cons, Listing.contains_nil, and_true] at contains
    have loaded := first k .t1 contains.1 (by decide)
    have orders : l.Orders (k + 1) (.computeWith op.operation .t0 .t1 n.toInt) :=
      ⟨_, _, _, contains.2, op.ofLine_mnemonic_with ..⟩
    have computed : op.operation.compute? ((v.set .t1 a).get .t1) (Int32.ofInt n.toInt)
        = op.compute? a n := by
      rw [View.get_set_self (by decide), Int32.ofInt_toInt, op.compute?_operation]
    cases result : op.compute? a n with
    | some c =>
      have goes := Listing.goes_computeWith assembled orders (by decide) (by decide) (by decide)
        (computed.trans result)
      exact ⟨_, (loaded.trans goes).mono (Nat.zero_le _), quiet.trans (.set (by decide)),
        View.get_set_self (by decide)⟩
    | none =>
      exact loaded.faults (Listing.faults_computeWith assembled orders (by decide)
        (computed.trans result))
  · have eq : op.lines left right
        = [left.load .t1, right.load .t2, line op.mnemonic [Register.t0, Register.t1, Register.t2]] := by
      cases right with
      | int n => exact absurd ⟨n, rfl⟩ known
      | slot n | constant index => rfl
    rw [eq] at contains ⊢
    simp only [Listing.contains_cons, Listing.contains_nil, and_true] at contains
    have loaded := first k .t1 contains.1 (by decide)
    have loaded' := second (k + 1) .t2 contains.2.1 (by decide)
    have orders : l.Orders (k + 1 + 1) (.compute op.operation .t0 .t1 .t2) :=
      ⟨_, _, _, contains.2.2, op.ofLine_mnemonic ..⟩
    have computed : op.operation.compute? (((v.set .t1 a).set .t2 b).get .t1)
        (((v.set .t1 a).set .t2 b).get .t2) = op.compute? a b := by
      rw [View.get_set_of_ne (by decide), View.get_set_self (by decide),
        View.get_set_self (by decide), op.compute?_operation]
    cases result : op.compute? a b with
    | some c =>
      have goes := Listing.goes_compute assembled orders (by decide) (by decide) (by decide)
        (by decide) (computed.trans result)
      exact ⟨_, ((loaded.trans loaded').trans goes).mono (Nat.zero_le _),
        (quiet.trans (.set (by decide))).trans (.set (by decide)), View.get_set_self (by decide)⟩
    | none =>
      exact (loaded.trans loaded').faults
        (Listing.faults_compute assembled orders (by decide) (by decide) (computed.trans result))

/-! ## Values of texts -/

/-- Whether the value of an expression is where it is said to be, or is the address of the text that it
is said to be. -/
def Value.Holds (l : Listing) (base last : Nat) (v : View) (a : Int32) (value : Value) : Prop :=
  value.Denotes base last v a ∨ ∃ index, value = .constant index ∧ l.textAddress index = a

namespace Value.Holds

variable {value : Value}

theorem mono {last' : Nat} (h : value.Holds l base last v a) (le : last ≤ last') :
    value.Holds l base last' v a :=
  h.imp_left (·.mono le)

theorem keep {low high : Nat} (h : value.Holds l base last v a)
    (keeps : Memory.Keeps base low high v.memory v'.memory) (le : base + 4 * (1 + last) ≤ low) :
    value.Holds l base last v' a :=
  h.imp_left (·.keep keeps le)

theorem quiet (h : value.Holds l base last v a) (quiet : Quiet v v') : value.Holds l base last v' a :=
  h.imp_left (·.quiet quiet)

theorem loads (assembled : l.assemble = .ok x.program) (sp : (v.get .sp).toInt = base)
    (h : value.Holds l base last v a) : value.Loads x l v a := by
  obtain denotes | ⟨index, rfl, rfl⟩ := h
  · exact denotes.loads assembled sp
  · exact fun k r there ne => Listing.goes_put_text assembled ⟨_, _, _, there, rfl⟩ ne

/-- A number is what it says. -/
theorem of_int {n : Int32} (h : (Value.int n).Holds l base last v a) : n = a := by
  obtain denotes | ⟨index, is, -⟩ := h
  · exact denotes
  · cases is

end Value.Holds

/-! ## What code leaves behind -/

/-- What a call leaves behind, for a caller with its frame at `base` and its return
address at the line `m`: the machine is back, and has the result. -/
structure Returned (l : Listing) (base m : Nat) (v : View) (a : Int32) (n : Nat) (v' : View) :
    Prop where
  /-- The machine is where it should go on. -/
  back : n = l.before m
  /-- The result is in its register. -/
  result : v'.get .a0 = a
  /-- The stack pointer is the same. -/
  sp : v'.get .sp = v.get .sp
  /-- The frame of the caller is the same, and all frames above. -/
  keeps : Memory.Keeps base base base v.memory v'.memory

/-- Whether the machine does what calls do, with at least `j` steps for calls that use up
their allowance. -/
def Callable (x : Setup) (l : Listing) (j : Nat) (calls : Calls) (arities : List (String × Nat)) :
    Prop :=
  ∀ name count, arities.lookup name = some count → ∃ k, l.Marks k (functionLabel name)
    ∧ ∀ values : List Int32, values.length = count →
      ∀ m (base : Nat) (v : View), (v.get .sp).toInt = base → base ≤ x.config.memorySize →
      (∀ (i : Nat) r a, Register.arguments[i]? = some r → values[i]? = some a → v.get r = a) →
      v.get .ra = Int32.ofInt (x.program.address (l.before m)) →
      Simulates x j (l.before k) v (calls name values) (Returned l base m v)

/-- What the code of an expression leaves behind, for a frame at `base`: the value is
where it should be, and nothing has changed but temporaries from the one with the number
`used` on. -/
structure Evaluated (l : Listing) (s : Scope) (peak base used k last : Nat) (value : Value)
    (v : View) (a : Int32) (n : Nat) (v' : View) : Prop where
  /-- The machine is at the end of the code. -/
  done : n = l.before k
  /-- The stack pointer is the same. -/
  sp : v'.get .sp = v.get .sp
  /-- The slots of variables and of other temporaries are the same. -/
  keeps : Memory.Keeps base (base + 4 * (1 + s.names.length + used))
    (base + 4 * (1 + s.names.length + peak)) v.memory v'.memory
  /-- The value is there. -/
  denotes : value.Denotes base (s.names.length + last) v' a

/-- The same for a value that may also be the address of a text. -/
structure Performed (l : Listing) (s : Scope) (peak base used k last : Nat) (value : Value) (v : View)
    (a : Int32) (n : Nat) (v' : View) : Prop where
  /-- The machine is at the end of the code. -/
  done : n = l.before k
  /-- The stack pointer is the same. -/
  sp : v'.get .sp = v.get .sp
  /-- The slots of variables and of other temporaries are the same. -/
  keeps : Memory.Keeps base (base + 4 * (1 + s.names.length + used))
    (base + 4 * (1 + s.names.length + peak)) v.memory v'.memory
  /-- The value is there. -/
  holds : value.Holds l base (s.names.length + last) v' a

theorem Evaluated.performed {value : Value} {used n : Nat}
    (h : Evaluated l s peak base used k last value v a n v') :
    Performed l s peak base used k last value v a n v' :=
  ⟨h.done, h.sp, h.keeps, .inl h.denotes⟩

/-- What the code of expressions leaves behind. -/
structure EvaluatedAll (l : Listing) (s : Scope) (peak base used k last : Nat)
    (values : List Value) (v : View) (as : List Int32) (n : Nat) (v' : View) : Prop where
  /-- The machine is at the end of the code. -/
  done : n = l.before k
  /-- The stack pointer is the same. -/
  sp : v'.get .sp = v.get .sp
  /-- The slots of variables and of other temporaries are the same. -/
  keeps : Memory.Keeps base (base + 4 * (1 + s.names.length + used))
    (base + 4 * (1 + s.names.length + peak)) v.memory v'.memory
  /-- The values are there. -/
  denote : List.Forall₂ (fun value a => value.Denotes base (s.names.length + last) v' a) values as

variable {σ σ' : Supply} {n : Nat}

/-- The lines of a call do what the call does. -/
theorem callLines_simulate (assembled : l.assemble = .ok x.program)
    (callable : Callable x l j calls s.arities) {callee back : String} {values : List Value}
    {as : List Int32} (sp : (v.get .sp).toInt = base) (high : base ≤ x.config.memorySize)
    (known : s.arities.lookup callee = some as.length)
    (contains : l.Contains k (Scope.callLines callee back values))
    (denote : List.Forall₂ (fun value a => value.Denotes base last v a) values as) :
    Simulates x j (l.before k) v (calls callee as)
      (Returned l base (k + (Scope.callLines callee back values).length) v) := by
  obtain ⟨kf, marks, called⟩ := callable callee _ known
  simp only [Scope.callLines, Listing.contains_append, Listing.contains_cons,
    Listing.contains_nil, and_true] at contains
  obtain ⟨loads, put, jump, mark⟩ := contains
  obtain ⟨v₁, loaded, quiet, passed, -⟩ :=
    goes_loads assembled sp loads (by decide) (by decide) denote
  have linked := Listing.goes_put_label (v := v₁) assembled (d := .ra) ⟨_, _, _, put, rfl⟩
    ⟨_, mark⟩ (by decide)
  have jumped (v : View) := Listing.goes_jumpTo (v := v) assembled ⟨_, _, _, jump, rfl⟩ marks
  have quiet' := quiet.trans (.set (r := .ra) (a := Int32.ofInt (x.program.address
    (l.before (k + (List.zipWith Value.load Register.arguments values).length + 1 + 1)))) (by decide))
  have next := Listing.Marks.before_succ assembled ⟨_, mark⟩
  refine .goes_free ((loaded.trans linked).trans (jumped _)) quiet'.output ?_
  refine (called as rfl _ base _ (quiet'.sp ▸ sp) high ?_ (View.get_set_self (by decide))).weaken
    fun a n v' h => ?_
  · intro i r a there there'
    have outside : ∀ r ∈ Register.arguments, r ≠ .ra := by decide
    rw [View.get_set_of_ne (outside r (List.mem_of_getElem? there)), passed i r a there there']
  · refine ⟨?_, h.result, h.sp.trans quiet'.sp, quiet'.keeps.trans h.keeps⟩
    rw [h.back, ← next, Scope.callLines, List.length_append]
    rfl

/-- After code that leaves a result in a register, the result is put into the next
temporary. -/
theorem goes_keep (assembled : l.assemble = .ok x.program) {used k' : Nat} {r : Register}
    {v₁ v₂ : View} (frame : Frame x s.names peak base env v) (sound : x.Sound v₁)
    (sp : v₁.get .sp = v.get .sp)
    (keeps : Memory.Keeps base (base + 4 * (1 + s.names.length + used))
      (base + 4 * (1 + s.names.length + peak)) v.memory v₁.memory)
    (goes : x.Goes n (l.before k) v₁ (l.before k') v₂) (quiet : Quiet v₁ v₂) (ne : r ≠ .pc)
    (there : l.lines[k']? = some (saveTo (s.names.length + (σ.temporaries + 1)) r))
    (within : used ≤ σ.temporaries) (le : σ.temporaries + 1 ≤ peak) :
    ∃ v₃, x.Goes 0 (l.before k) v₁ (l.before (k' + 1)) v₃ ∧ v₃.output = v₁.output
      ∧ Evaluated l s peak base used (k' + 1) σ.kept.temporaries
          (.slot (s.names.length + (σ.temporaries + 1))) v (v₂.get r) (l.before (k' + 1)) v₃ := by
  have frame₂ : Frame x s.names peak base env v₂ := (frame.keep sp keeps (by omega)).quiet quiet
  have high := frame.high
  have saved := goes_saveTo assembled frame₂ there ne (by omega)
  refine ⟨_, (goes.trans saved).mono (Nat.zero_le _), View.output_store.trans quiet.output, ?_⟩
  refine ⟨rfl, View.get_store.trans (quiet.sp.trans sp), (keeps.trans quiet.keeps).trans ?_, Nat.le_refl _, ?_⟩
  · exact View.keeps_store (by omega) (by omega)
  · refine View.word_store ?_
    rw [quiet.memory, sound.size]
    omega

/-- The instruction of a sign. -/
theorem goes_negate (assembled : l.assemble = .ok x.program) (sound : x.Sound v)
    (there : l.lines[k]? = some (line "sub" [Register.t0, Register.zero, Register.t1])) :
    x.Goes 1 (l.before k) (v.set .t1 a) (l.before (k + 1)) ((v.set .t1 a).set .t0 (-a)) := by
  refine Listing.goes_compute assembled (o := ⟨.sub, false⟩) (a := .zero) (b := .t1)
    ⟨_, _, _, there, rfl⟩ (by decide) (by decide) (by decide) (by decide) ?_
  rw [View.get_set_of_ne (by decide), View.get_set_self (by decide), sound.zero]
  exact congrArg some (Int32.zero_sub a)

/-- The instruction of the test whether a word is zero. -/
theorem goes_not (assembled : l.assemble = .ok x.program)
    (there : l.lines[k]? = some (line "not" [Register.t0, Register.t1])) :
    x.Goes 1 (l.before k) (v.set .t1 a) (l.before (k + 1)) ((v.set .t1 a).set .t0 (truth (a == 0))) := by
  have computed := Listing.goes_isZero (v := v.set .t1 a) assembled (d := .t0) (a := .t1)
    ⟨_, _, _, there, rfl⟩ (by decide) (by decide)
  rw [View.get_set_self (by decide)] at computed
  simpa [truth] using computed

/-- The lines of an operator between values, with the temporary for its result. -/
theorem simulates_operator (assembled : l.assemble = .ok x.program) (op : Operator) {used : Nat}
    {left right : Value} {b : Int32} {v₁ : View} (frame : Frame x s.names peak base env v)
    (sp : v₁.get .sp = v.get .sp)
    (keeps : Memory.Keeps base (base + 4 * (1 + s.names.length + used))
      (base + 4 * (1 + s.names.length + peak)) v.memory v₁.memory)
    (first : left.Loads x l v₁ a) (second : right.Loads x l (v₁.set .t1 a) b)
    (number : ∀ n, right = .int n → n = b) (contains : l.Contains k (op.lines left right))
    (saved : l.lines[k + (op.lines left right).length]?
      = some (saveTo (s.names.length + (σ.temporaries + 1)) .t0))
    (within : used ≤ σ.temporaries) (le : σ.temporaries + 1 ≤ peak) :
    Simulates x j (l.before k) v₁ (.ofOption .divisionByZero (op.compute? a b))
      (Evaluated l s peak base used (k + (op.lines left right).length + 1) σ.kept.temporaries
        (.slot (s.names.length + (σ.temporaries + 1))) v) := by
  refine .of_sound fun sound => ?_
  have spec := op.lines_spec assembled contains first second number
  cases computed : op.compute? a b with
  | none =>
    rw [computed] at spec
    exact .divisionByZero spec
  | some c =>
    rw [computed] at spec
    obtain ⟨v₂, goes, quiet, result⟩ := spec
    obtain ⟨v₃, goes, output, kept⟩ := goes_keep assembled frame sound sp keeps goes quiet (r := .t0)
      (by decide) saved within le
    rw [result] at kept
    exact .goes_free goes output (.give kept)

/-! ## Operators and calls after their operands -/

/-- What is known of an operand is turned into what is known of the result. -/
theorem simulates_known {run : Run Int32} {used m : Nat} {c : Int32} (f : Int32 → Int32)
    (operand : Simulates x j n v run (Evaluated l s peak base used m last (.int c) v)) :
    Simulates x j n v (run.andThen fun a => .give (f a))
      (Evaluated l s peak base used m last (.int (f c)) v) :=
  operand.andThen fun _ _ _ h => .give ⟨h.done, h.sp, h.keeps, congrArg f h.denotes⟩

/-- An operator with one operand, after the code of the operand. -/
theorem simulates_unary (assembled : l.assemble = .ok x.program) (frame : Frame x s.names peak base env v)
    {f : Int32 → Int32} {instruction : Line} {code : List Line} {value : Value} {run : Run Int32} {used : Nat}
    (goes : ∀ {k : Nat} {v : View} {a : Int32}, x.Sound v → l.lines[k]? = some instruction →
      x.Goes 1 (l.before k) (v.set .t1 a) (l.before (k + 1)) ((v.set .t1 a).set .t0 (f a)))
    (contains : l.Contains (k + code.length)
      [value.load .t1, instruction, saveTo (s.names.length + (σ.temporaries + 1)) .t0])
    (within : used ≤ σ.temporaries) (le : σ.temporaries + 1 ≤ peak)
    (operand : Simulates x j (l.before k) v run
      (Performed l s peak base used (k + code.length) σ.temporaries value v)) :
    Simulates x j (l.before k) v (run.andThen fun a => .give (f a))
      (Evaluated l s peak base used (k + code.length + 3) σ.kept.temporaries
        (.slot (s.names.length + (σ.temporaries + 1))) v) := by
  simp only [Listing.contains_cons, Listing.contains_nil, and_true] at contains
  obtain ⟨load, there, saved⟩ := contains
  refine operand.andThen fun a n' v₁ h => .of_sound fun sound => ?_
  obtain rfl := h.done
  have sp := (frame.keep h.sp h.keeps (by omega)).sp
  have loaded := h.holds.loads assembled sp _ .t1 load (by decide)
  have quiet : Quiet v₁ ((v₁.set .t1 a).set .t0 (f a)) := (Quiet.set (by decide)).trans (.set (by decide))
  obtain ⟨v₂, gone, output, kept⟩ := goes_keep assembled frame sound h.sp h.keeps
    (loaded.trans (goes sound there)) quiet (r := .t0) (by decide) saved within le
  rw [View.get_set_self (by decide)] at kept
  exact .goes_free gone output (.give kept)

/-- What is known of both operands is turned into what is known of the result. -/
theorem simulates_folded {op : Operator} {left right value : Value} {first second : Run Int32}
    {σ₁ σ₂ : Supply} {m : Nat} (folded : op.fold? left right = some value)
    (frame : Frame x s.names peak base env v) (within : σ.Within σ₁)
    (one : Simulates x j (l.before k) v first
      (Evaluated l s peak base σ.temporaries m σ₁.temporaries left v))
    (other : ∀ v₁, Frame x s.names peak base env v₁ → Simulates x j (l.before m) v₁ second
      (Evaluated l s peak base σ₁.temporaries n σ₂.temporaries right v₁)) :
    Simulates x j (l.before k) v
      (first.andThen fun a => second.andThen fun b => .ofOption .divisionByZero (op.compute? a b))
      (Evaluated l s peak base σ.temporaries n σ₂.temporaries value v) := by
  refine one.andThen fun a n' v₁ h => ?_
  obtain rfl := h.done
  refine (other v₁ (frame.keep h.sp h.keeps (by omega))).andThen fun b n' v₂ h' => ?_
  obtain ⟨c, rfl, result⟩ := Operator.fold?_eq_some folded h.denotes h'.denotes
  rw [result]
  refine .give ⟨h'.done, h'.sp.trans h.sp, h.keeps.trans (h'.keeps.widen ?_ (Nat.le_refl _)), rfl⟩
  have := within.temporaries
  omega

/-- An operator with two operands, after the code of the operands. -/
theorem simulates_binary (assembled : l.assemble = .ok x.program) (frame : Frame x s.names peak base env v)
    (op : Operator) {left right : Value} {first second : Run Int32} {σ₁ σ₂ : Supply} {m : Nat}
    (contains : l.Contains n (op.lines left right ++ [saveTo (s.names.length + (σ₂.temporaries + 1)) .t0]))
    (within : σ.Within σ₁) (within' : σ₁.Within σ₂) (le : σ₂.temporaries + 1 ≤ peak)
    (one : Simulates x j (l.before k) v first
      (Performed l s peak base σ.temporaries m σ₁.temporaries left v))
    (other : ∀ v₁, Frame x s.names peak base env v₁ → Simulates x j (l.before m) v₁ second
      (Performed l s peak base σ₁.temporaries n σ₂.temporaries right v₁)) :
    Simulates x j (l.before k) v
      (first.andThen fun a => second.andThen fun b => .ofOption .divisionByZero (op.compute? a b))
      (Evaluated l s peak base σ.temporaries (n + (op.lines left right).length + 1) σ₂.kept.temporaries
        (.slot (s.names.length + (σ₂.temporaries + 1))) v) := by
  simp only [Listing.contains_append, Listing.contains_cons, Listing.contains_nil, and_true] at contains
  have more := within.temporaries
  have more' := within'.temporaries
  refine one.andThen fun a n' v₁ h => ?_
  obtain rfl := h.done
  have frame₁ := frame.keep h.sp h.keeps (by omega)
  refine (other v₁ frame₁).andThen fun b n' v₂ h' => ?_
  obtain rfl := h'.done
  have frame₂ := frame₁.keep h'.sp h'.keeps (by omega)
  -- the code of the right operand leaves alone the temporary of the left one
  have keeps := h.keeps.trans (h'.keeps.widen (by omega) (Nat.le_refl _))
  have holds := (h.holds.keep h'.keeps (by omega)).mono
    (show _ ≤ s.names.length + σ₂.temporaries by omega)
  have quiet : Quiet v₂ (v₂.set .t1 a) := .set (by decide)
  exact simulates_operator assembled op frame (h'.sp.trans h.sp) keeps
    (holds.loads assembled frame₂.sp) ((h'.holds.quiet quiet).loads assembled (quiet.sp ▸ frame₂.sp))
    (fun n is => (is ▸ h'.holds).of_int) contains.1 contains.2 (Nat.le_trans more more') le

/-- A call, after the code of its arguments. -/
theorem simulates_call (assembled : l.assemble = .ok x.program)
    (callable : Callable x l j calls s.arities) (frame : Frame x s.names peak base env v)
    {callee back : String} {values : List Value} {run : Run (List Int32)} {used : Nat}
    (known : s.arities.lookup callee = some values.length)
    (contains : l.Contains n (Scope.callLines callee back values
      ++ [saveTo (s.names.length + (σ.temporaries + 1)) .a0]))
    (within : used ≤ σ.temporaries) (le : σ.temporaries + 1 ≤ peak)
    (arguments : Simulates x j (l.before k) v run
      (EvaluatedAll l s peak base used n σ.temporaries values v)) :
    Simulates x j (l.before k) v (run.andThen (calls callee))
      (Evaluated l s peak base used (n + (Scope.callLines callee back values).length + 1)
        σ.kept.temporaries (.slot (s.names.length + (σ.temporaries + 1))) v) := by
  simp only [Listing.contains_append, Listing.contains_cons, Listing.contains_nil, and_true] at contains
  refine arguments.andThen fun as n' v₁ h => ?_
  obtain rfl := h.done
  have sp := (frame.keep h.sp h.keeps (by omega)).sp
  have high := frame.high
  refine (callLines_simulate assembled callable sp (by omega) (h.denote.length_eq ▸ known)
    contains.1 h.denote).andGoes fun a n' v₂ sound h' => ?_
  have keeps := h.keeps.trans (h'.keeps.above (Nat.le_refl _) (Nat.le_refl _))
  obtain rfl := h'.back
  obtain ⟨v₃, goes, output, kept⟩ := goes_keep assembled frame sound (h'.sp.trans h.sp) keeps
    (.refl (n := l.before _)) ⟨rfl, rfl, rfl⟩ (r := .a0) (by decide) contains.2 within le
  rw [h'.result] at kept
  exact ⟨_, v₃, goes, output, kept⟩

/-! ## The theorem -/

mutual

/-- **The code of an expression** does what the expression does. -/
theorem Expression.simulates (assembled : l.assemble = .ok x.program)
    (callable : Callable x l j calls s.arities) (e : Expression) {σ σ' : Supply} {code : List Line} {value : Value}
    {k : Nat} {v : View} (compiled : e.compile s σ = .ok ((code, value), σ'))
    (contains : l.Contains k code) (frame : Frame x s.names peak base env v)
    (le : σ'.peak ≤ peak) :
    Simulates x j (l.before k) v (e.eval calls env)
      (Evaluated l s peak base σ.temporaries (k + code.length) σ'.temporaries value v) := by
  cases e with
  | integer value span =>
    obtain ⟨eq, rfl⟩ := Expression.compile_integer compiled
    obtain ⟨rfl, rfl⟩ := Prod.mk.inj eq
    exact .give ⟨rfl, rfl, .refl, rfl⟩
  | «variable» name span =>
    obtain ⟨mem, eq, rfl⟩ := Expression.compile_variable compiled
    obtain ⟨rfl, rfl⟩ := Prod.mk.inj eq
    unfold Expression.eval
    cases found : env name with
    | none => exact .undefined
    | some a =>
      have := slotOf_le mem
      exact .give ⟨rfl, rfl, .refl, Nat.le_trans this (Nat.le_add_right _ _), frame.word name a found⟩
  | text text => exact .undefined
  | load base offset span => exact .undefined
  | broken before defect span => exact .undefined
  | negate e =>
    obtain ⟨code', value', σ₁, compiled', ⟨n, rfl, eq, rfl⟩ | kept⟩ :=
      Expression.compile_negate compiled
    · obtain ⟨rfl, rfl⟩ := Prod.mk.inj eq
      exact simulates_known _ (e.simulates assembled callable compiled' contains frame le)
    · obtain ⟨rfl, rfl, rfl⟩ := eq_of_keep kept
      have peak_le : σ₁.peak ≤ peak ∧ σ₁.temporaries + 1 ≤ peak := Nat.max_le.1 le
      rw [List.append_assoc, Listing.contains_append] at contains
      have operand := e.simulates assembled callable compiled' contains.1 frame peak_le.1
      have done := simulates_unary assembled frame (goes_negate assembled) contains.2
        (e.within compiled').temporaries peak_le.2 (operand.weaken fun _ _ _ h => h.performed)
      unfold Expression.eval
      simpa [Nat.add_assoc] using done
  | isZero e =>
    obtain ⟨code', value', σ₁, compiled', ⟨n, rfl, eq, rfl⟩ | kept⟩ :=
      Expression.compile_isZero compiled
    · obtain ⟨rfl, rfl⟩ := Prod.mk.inj eq
      exact simulates_known (fun a => truth (a == 0))
        (e.simulates assembled callable compiled' contains frame le)
    · obtain ⟨rfl, rfl, rfl⟩ := eq_of_keep kept
      have peak_le : σ₁.peak ≤ peak ∧ σ₁.temporaries + 1 ≤ peak := Nat.max_le.1 le
      rw [List.append_assoc, Listing.contains_append] at contains
      have operand := e.simulates assembled callable compiled' contains.1 frame peak_le.1
      have done := simulates_unary assembled frame (fun _ => goes_not assembled) contains.2
        (e.within compiled').temporaries peak_le.2 (operand.weaken fun _ _ _ h => h.performed)
      unfold Expression.eval
      simpa [Nat.add_assoc] using done
  | binary op left right span =>
    obtain ⟨first, b, σ₁, second, c, σ₂, compiled₁, compiled₂, divides,
      ⟨value', folded, eq, rfl⟩ | kept⟩ := Expression.compile_binary compiled
    · obtain ⟨rfl, rfl⟩ := Prod.mk.inj eq
      rw [Listing.contains_append] at contains
      rw [List.length_append, ← Nat.add_assoc]
      have le' := Nat.le_trans (right.within compiled₂).peak le
      exact simulates_folded folded frame (left.within compiled₁)
        (left.simulates assembled callable compiled₁ contains.1 frame le')
        fun v₁ frame₁ => right.simulates assembled callable compiled₂ contains.2 frame₁ le
    · obtain ⟨rfl, rfl, rfl⟩ := eq_of_keep kept
      have within' := right.within compiled₂
      have peak_le : σ₂.peak ≤ peak ∧ σ₂.temporaries + 1 ≤ peak := Nat.max_le.1 le
      rw [List.append_assoc, Listing.contains_append, Listing.contains_append, List.length_append,
        ← Nat.add_assoc] at contains
      obtain ⟨⟨inner, inner'⟩, lines⟩ := contains
      have one := left.simulates assembled callable compiled₁ inner frame
        (Nat.le_trans within'.peak peak_le.1)
      have done := simulates_binary assembled frame op lines (left.within compiled₁) within' peak_le.2
        (one.weaken fun _ _ _ h => h.performed)
        fun v₁ frame₁ => (right.simulates assembled callable compiled₂ inner' frame₁ peak_le.1).weaken
          fun _ _ _ h => h.performed
      unfold Expression.eval
      simpa [Nat.add_assoc] using done
  | call callee arguments span =>
    obtain ⟨code', values, σ₁, arity, compiled', ⟨host, known, kept⟩ | ⟨unknown, kept⟩⟩ :=
      Expression.compile_call compiled
    · -- within an expression a call of the host has no meaning
      obtain ⟨rfl, rfl, rfl⟩ := eq_of_keep kept
      rw [Listing.contains_append, Listing.contains_append] at contains
      refine (simulatesAll assembled callable arguments compiled' contains.1.1 frame (Nat.max_le.1 le).1).andThen
        fun as n' v₁ h => ?_
      rw [known]
      exact .undefined
    · obtain ⟨rfl, rfl, rfl⟩ := eq_of_keep kept
      have peak_le : σ₁.peak ≤ peak ∧ σ₁.temporaries + 1 ≤ peak := Nat.max_le.1 le
      rw [List.append_assoc, Listing.contains_append] at contains
      have known := Scope.lookup_of_arity arity unknown
      rw [← compileAll_length compiled'] at known
      have inner := simulatesAll assembled callable arguments compiled' contains.1 frame peak_le.1
      have done := simulates_call (σ := σ₁.labeled) assembled callable frame known contains.2
        (withinAll arguments compiled').temporaries peak_le.2 inner
      unfold Expression.eval
      simpa [unknown, Nat.add_assoc] using done

theorem simulatesAll (assembled : l.assemble = .ok x.program)
    (callable : Callable x l j calls s.arities) (es : List Expression) {σ σ' : Supply} {code : List Line}
    {values : List Value} {k : Nat} {v : View}
    (compiled : compileAll s es σ = .ok ((code, values), σ'))
    (contains : l.Contains k code) (frame : Frame x s.names peak base env v)
    (le : σ'.peak ≤ peak) :
    Simulates x j (l.before k) v (evalAll calls env es)
      (EvaluatedAll l s peak base σ.temporaries (k + code.length) σ'.temporaries values v) := by
  cases es with
  | nil =>
    obtain ⟨eq, rfl⟩ := compileAll_nil compiled
    obtain ⟨rfl, rfl⟩ := Prod.mk.inj eq
    exact .give ⟨rfl, rfl, .refl, .nil⟩
  | cons e es =>
    obtain ⟨first, value, σ₁, rest, others, compiled₁, compiled₂, eq⟩ := compileAll_cons compiled
    obtain ⟨rfl, rfl⟩ := Prod.mk.inj eq
    rw [Listing.contains_append] at contains
    have within := e.within compiled₁
    have within' := withinAll es compiled₂
    refine (e.simulates assembled callable compiled₁ contains.1 frame
      (Nat.le_trans within'.peak le)).andThen fun a n' v₁ h => ?_
    obtain rfl := h.done
    have frame₁ := frame.keep h.sp h.keeps (by omega)
    refine (simulatesAll assembled callable es compiled₂ contains.2 frame₁ le).andThen fun as n' v₂ h' => .give ?_
    refine ⟨?_, h'.sp.trans h.sp, ?_, .cons ?_ h'.denote⟩
    · rw [h'.done, List.length_append, Nat.add_assoc]
    · exact h.keeps.trans (h'.keeps.widen (by have := within.temporaries; omega) (Nat.le_refl _))
    · exact (h.denotes.keep h'.keeps (by omega)).mono (by have := within'.temporaries; omega)

end

end Polyglot.B
