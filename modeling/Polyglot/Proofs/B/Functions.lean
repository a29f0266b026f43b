import Polyglot.Proofs.B.Statements

/-!
# The code of functions

The code of a function makes a frame, puts the return address and the parameters into
it, does what the body does, and takes the frame away again (`Function.simulates`). The
caller sees its own frame unchanged and the result in `a0`.

That calls may call functions again is settled by an induction on the allowance
(`Program.callable`): with an allowance of `j` calls inside each other, what is taken for
granted of the calls in a function is known for `j - 1`.
-/

namespace Polyglot.B

open Polyglot.Source
open Polyglot.Assembly (Line Listing Command Operand Operation)
open Polyglot.Machine (Register Setup View Memory Syscall)

/-! ## The parts of a function -/

variable {x : Setup} {l : Listing} {calls : Calls} {env : Env} {v v' : View}
  {names : List String} {j k m peak base : Nat}

/-- The parameters are put into their slots. -/
theorem goes_parameters (assembled : l.assemble = .ok x.program) {registers : List Register}
    {parameters : List String} {values : List Int32} (frame : Frame x names peak base env v)
    (size : v.memory.size = x.config.memorySize)
    (contains : l.Contains k
      (List.zipWith (fun r name => saveTo (slotOf names name) r) registers parameters))
    (free : ∀ r ∈ registers, r ≠ .pc)
    (passed : ∀ (i : Nat) r a, registers[i]? = some r → values[i]? = some a → v.get r = a)
    (count : values.length = parameters.length) (few : parameters.length ≤ registers.length)
    (mem : ∀ name ∈ parameters, name ∈ names) :
    ∃ v', x.Goes 0 (l.before k) v (l.before (k + parameters.length)) v'
      ∧ Frame x names peak base (env.bind parameters values) v' ∧ v'.output = v.output
      ∧ v'.get .sp = v.get .sp
      ∧ Memory.Keeps base (base + 4) (base + 4 * (1 + names.length + peak)) v.memory v'.memory := by
  -- on the parameters: each saves its register, and the frame has one variable more
  induction parameters generalizing registers values k v env with
  | nil =>
    refine ⟨v, .refl, ?_, rfl, rfl, .refl⟩
    cases values with
    | nil => exact frame
    | cons a values => cases count
  | cons name parameters ih =>
    cases registers with
    | nil => cases few
    | cons r registers =>
    cases values with
    | nil => cases count
    | cons a values =>
      rw [List.zipWith_cons_cons, Listing.contains_cons] at contains
      have inside : name ∈ names := mem name List.mem_cons_self
      have le := slotOf_le inside
      have high := frame.high
      have saved := goes_saveTo assembled frame contains.1 (free r List.mem_cons_self) (by omega)
      rw [passed 0 r a rfl rfl] at saved
      obtain ⟨v', goes, frame', output, sp, keeps⟩ := ih (frame.assign (a := a) size inside)
        (View.size_store.trans size) contains.2 (fun r mem => free r (List.mem_cons_of_mem _ mem))
        (fun i r a there there' => by
          rw [View.get_store]
          exact passed (i + 1) r a there there')
        (Nat.succ.inj count) (Nat.le_of_succ_le_succ few)
        (fun name inside => mem name (List.mem_cons_of_mem _ inside))
      have kept : Memory.Keeps base (base + 4) (base + 4 * (1 + names.length + peak)) v.memory
          (v.store (base + 4 * slotOf names name) a).memory :=
        View.keeps_store (by unfold slotOf; omega) (by omega)
      refine ⟨v', ?_, frame', output.trans View.output_store, sp.trans View.get_store,
        kept.trans keeps⟩
      rw [List.length_cons, Nat.add_comm parameters.length, ← Nat.add_assoc]
      exact (saved.trans goes).mono (Nat.zero_le _)

/-- The stack pointer is moved. -/
theorem goes_move (assembled : l.assemble = .ok x.program) {distance : Int}
    (there : l.lines[k]? = some (line "addv" [Register.sp, Register.sp, .int distance])) :
    x.Goes 1 (l.before k) v (l.before (k + 1)) (v.set .sp (v.get .sp + Int32.ofInt distance))
      ∧ -0x80000000 ≤ distance ∧ distance < 0x80000000 := by
  have orders : l.Orders k (.computeWith ⟨.add, false⟩ .sp .sp distance) := ⟨_, _, _, there, rfl⟩
  exact ⟨Listing.goes_computeWith assembled orders (by decide) (by decide) (by decide) rfl,
    Listing.bounds_of_computeWith assembled orders⟩

/-- The return address is put into its slot, and the parameters into theirs. -/
theorem goes_entry (assembled : l.assemble = .ok x.program) {f : Function} {values : List Int32}
    (saves : l.lines[k]? = some (saveTo 0 .ra))
    (contains : l.Contains (k + 1) (List.zipWith (fun r name => saveTo (slotOf f.names name) r)
      Register.arguments f.parameters))
    (few : f.parameters.length ≤ maxParameters) (count : values.length = f.parameters.length)
    (frame : Frame x f.names peak base .empty v) (size : v.memory.size = x.config.memorySize)
    (passed : ∀ (i : Nat) r a, Register.arguments[i]? = some r → values[i]? = some a →
      v.get r = a) :
    ∃ v', x.Goes 0 (l.before k) v (l.before (k + 1 + f.parameters.length)) v'
      ∧ Frame x f.names peak base (Env.empty.bind f.parameters values) v' ∧ v'.output = v.output
      ∧ v'.get .sp = v.get .sp ∧ v'.Word base (v.get .ra)
      ∧ Memory.Keeps base base (base + 4 * (1 + f.names.length + peak)) v.memory v'.memory := by
  have high := frame.high
  have saved := goes_saveTo assembled frame saves (by decide) (Nat.zero_le _)
  have kept : Memory.Keeps base base (base + 4 * (1 + f.names.length + peak)) v.memory
      (v.store (base + 4 * 0) (v.get .ra)).memory := View.keeps_store (by omega) (by omega)
  have frame₁ : Frame x f.names peak base .empty (v.store (base + 4 * 0) (v.get .ra)) := by
    refine ⟨?_, frame.low, frame.high, nofun, nofun⟩
    rw [View.get_store]
    exact frame.sp
  have word : (v.store (base + 4 * 0) (v.get .ra)).Word base (v.get .ra) :=
    View.word_store (by rw [size]; omega)
  have mem : ∀ name ∈ f.parameters, name ∈ f.names := fun name inside => by
    rw [Function.names, List.mem_eraseDups]
    exact List.mem_append_left _ inside
  obtain ⟨v', goes, frame', output, sp, keeps⟩ :=
    goes_parameters assembled frame₁ (View.size_store.trans size) contains (by decide)
      (fun i r a there there' => by
        rw [View.get_store]
        exact passed i r a there there') count few mem
  refine ⟨v', (saved.trans goes).mono (Nat.zero_le _), frame', output.trans View.output_store,
    sp.trans View.get_store, ?_, kept.trans (keeps.widen (by omega) (Nat.le_refl _))⟩
  exact keeps.holds word (Nat.le_refl _) (.inl (Nat.le_refl _))

/-- From the end of a function, the machine goes back to the caller. -/
theorem goes_leave (assembled : l.assemble = .ok x.program) {ending : String} {frame : Nat}
    (contains : l.Contains k [place ending, Value.load .ra (.slot 0),
      line "addv" [Register.sp, Register.sp, .int frame], line "jump" [Register.ra]])
    (sp : (v.get .sp).toInt = base)
    (word : v.Word base (Int32.ofInt (x.program.address (l.before m)))) :
    ∃ v', x.Goes 0 (l.before k) v (l.before m) v' ∧ v'.output = v.output
      ∧ v'.get .a0 = v.get .a0 ∧ v'.get .sp = v.get .sp + Int32.ofInt frame
      ∧ v'.memory = v.memory := by
  simp only [Listing.contains_cons, Listing.contains_nil, and_true] at contains
  obtain ⟨mark, load, move, jump⟩ := contains
  have next := Listing.Marks.before_succ assembled ⟨_, mark⟩
  have denotes : (Value.slot 0).Denotes base 0 v (Int32.ofInt (x.program.address (l.before m))) :=
    ⟨Nat.le_refl _, word⟩
  have loaded := Value.goes_load assembled sp load (by decide) denotes
  obtain ⟨moved, -⟩ := goes_move (v := v.set .ra (Int32.ofInt (x.program.address (l.before m))))
    assembled move
  rw [View.get_set_of_ne (by decide)] at moved
  have address : (Int32.ofInt (x.program.address (l.before m))).toInt
      = x.program.address (l.before m) := by
    have := x.address_lt (l.before_le assembled m)
    rw [Int32.toInt_ofInt]
    exact Int.bmod_eq_of_le (by show -0x80000000 ≤ _; omega) (by show _ < 0x80000000; omega)
  have jumped := Listing.goes_jump (m := m) (v := (v.set .ra (Int32.ofInt (x.program.address
    (l.before m)))).set .sp (v.get .sp + Int32.ofInt frame)) assembled (a := .ra)
    ⟨_, _, _, jump, rfl⟩ (by decide)
    (by rw [View.get_set_of_ne (by decide), View.get_set_self (by decide), address])
  rw [← next]
  refine ⟨_, ((loaded.trans moved).trans jumped).mono (Nat.zero_le _), rfl, ?_, ?_, rfl⟩
  · rw [View.get_set_of_ne (by decide), View.get_set_of_ne (by decide)]
  · exact View.get_set_self (by decide)

theorem length_prologue {f : Function} {frame : Nat} (few : f.parameters.length ≤ maxParameters) :
    (prologue f frame).length = 3 + f.parameters.length := by
  have registers : Register.arguments.length = maxParameters := by decide
  simp only [prologue, List.length_append, List.length_zipWith, registers, Nat.min_eq_right few]
  rfl

/-- What the lines that start a function leave behind: its frame, at `base`. -/
structure Entered (x : Setup) (f : Function) (peak base : Nat) (values : List Int32) (v v' : View) :
    Prop where
  /-- The frame is right for the parameters. -/
  frame : Frame x f.names peak base (Env.empty.bind f.parameters values) v'
  /-- The stack pointer was moved by the size of the frame. -/
  sp : v'.get .sp = v.get .sp + Int32.ofInt (-(4 * (1 + f.names.length + peak) : Nat))
  /-- The return address is in its slot. -/
  word : v'.Word base (v.get .ra)
  /-- Everything above the frame is the same. -/
  keeps : Memory.Keeps base base (base + 4 * (1 + f.names.length + peak)) v.memory v'.memory

variable {α : Type} {run : Run α} {post : α → Nat → View → Prop} {f : Function} {values : List Int32}
  {v₁ v₂ : View} {base' : Nat} {a : Int32}

/-- **The lines that start a function** make its frame, below where the stack pointer was. If there is
no room for it, the machine has overflowed, and nothing is asked of it. -/
theorem simulates_prologue (assembled : l.assemble = .ok x.program)
    (contains : l.Contains k (prologue f (4 * (1 + f.names.length + peak))))
    (few : f.parameters.length ≤ maxParameters) (count : values.length = f.parameters.length)
    (sp : (v.get .sp).toInt = base) (high : base ≤ x.config.memorySize)
    (passed : ∀ (i : Nat) r a, Register.arguments[i]? = some r → values[i]? = some a → v.get r = a)
    (next : ∀ base' v', base' + 4 * (1 + f.names.length + peak) = base →
      Entered x f peak base' values v v' →
      Simulates x j (l.before (k + (3 + f.parameters.length))) v' run post) :
    Simulates x (j + 1) (l.before k) v run post := by
  simp only [prologue, List.cons_append, List.nil_append, Listing.contains_cons] at contains
  obtain ⟨mark, move, saves, parameters⟩ := contains
  obtain ⟨moved, bounds⟩ := goes_move (v := v) assembled move
  rw [Listing.Marks.before_succ assembled ⟨_, mark⟩] at moved
  rw [Nat.add_comm j 1]
  refine .goes moved rfl (.of_sound fun sound => ?_)
  have low := sound.limit
  have size := x.size
  rw [View.get_set_self (by decide), Machine.toInt_add_ofInt (by omega) (by omega), sp] at low
  obtain ⟨base', base_eq⟩ : ∃ base', base' + 4 * (1 + f.names.length + peak) = base :=
    ⟨base - 4 * (1 + f.names.length + peak), by omega⟩
  have frame₁ : Frame x f.names peak base' .empty (v.set .sp (v.get .sp
      + Int32.ofInt (-(4 * (1 + f.names.length + peak) : Nat)))) := by
    have nothing (name : String) (value : Int32) : Env.empty name ≠ some value := fun has => by
      cases has
    refine ⟨?_, by omega, by omega, fun _ _ has => absurd has (nothing _ _),
      fun _ _ has => absurd has (nothing _ _)⟩
    rw [View.get_set_self (by decide), Machine.toInt_add_ofInt (by omega) (by omega), sp]
    omega
  obtain ⟨v₂, entered, frame₂, output, sp₂, word, keeps⟩ :=
    goes_entry assembled saves parameters few count frame₁ sound.size fun i r a there there' => by
      have outside : ∀ r ∈ Register.arguments, r ≠ .sp := by decide
      rw [View.get_set_of_ne (outside r (List.mem_of_getElem? there)), passed i r a there there']
  rw [View.get_set_self (by decide)] at sp₂
  rw [View.get_set_of_ne (by decide)] at word
  refine .goes_free entered output ?_
  rw [show k + 1 + 1 + 1 + f.parameters.length = k + (3 + f.parameters.length) by omega]
  exact next base' v₂ base_eq ⟨frame₂, sp₂, word, keeps⟩

/-- **The lines that end a function**, from its label on, go back with what is in the register for the
result. -/
theorem simulates_leave (assembled : l.assemble = .ok x.program) {ending : String}
    (contains : l.Contains k [place ending, Value.load .ra (.slot 0),
      line "addv" [Register.sp, Register.sp, .int (4 * (1 + f.names.length + peak) : Nat)],
      line "jump" [Register.ra]])
    (sp : (v.get .sp).toInt = base) (back : v.get .ra = Int32.ofInt (x.program.address (l.before m)))
    (above : base' + 4 * (1 + f.names.length + peak) = base) (entered : Entered x f peak base' values v v₁)
    (same : v₂.get .sp = v₁.get .sp)
    (keeps : Memory.Keeps base' (base' + 4) (base' + 4 * (1 + f.names.length + peak)) v₁.memory v₂.memory)
    (result : v₂.get .a0 = a) :
    Simulates x j (l.before k) v₂ (.give a) (Returned l base m v) := by
  have sp₂ : (v₂.get .sp).toInt = base' := same ▸ entered.frame.sp
  have high := entered.frame.high
  have size := x.size
  have word := keeps.holds entered.word (Nat.le_refl _) (.inl (Nat.le_refl _))
  rw [back] at word
  obtain ⟨v₃, left, output, result₃, sp₃, memory⟩ := goes_leave assembled contains sp₂ word
  have restored : v.get .sp + Int32.ofInt (-(4 * (1 + f.names.length + peak) : Nat))
      + Int32.ofInt (4 * (1 + f.names.length + peak) : Nat) = v.get .sp := by
    refine Int32.toInt_inj.1 ?_
    rw [← entered.sp, ← same, Machine.toInt_add_ofInt (by omega) (by omega), sp₂, sp]
    omega
  refine .goes_free left output (.give ⟨rfl, result₃.trans result, ?_, ?_⟩)
  · rw [sp₃, same, entered.sp, restored]
  · rw [memory]
    exact (entered.keeps.trans (keeps.widen (Nat.le_add_right _ _) (Nat.le_refl _))).above
      (by omega) (by omega)

/-! ## The theorem -/

/-- **The code of a function** does what a call of the function does, and takes at least
one step. -/
theorem Function.simulates (assembled : l.assemble = .ok x.program)
    (callable : Callable x l j calls arities) {f : Function} {code : List Line}
    (done : f.compile constants arities σ = .ok (code, σ')) (contains : l.Contains k code)
    (few : f.parameters.length ≤ maxParameters)
    (closed : ∀ body, f.body = some body → ∀ name ∈ body.targets, name ∈ f.names)
    {values : List Int32} (count : values.length = f.parameters.length)
    (sp : (v.get .sp).toInt = base) (high : base ≤ x.config.memorySize)
    (passed : ∀ (i : Nat) r a, Register.arguments[i]? = some r → values[i]? = some a → v.get r = a)
    (back : v.get .ra = Int32.ofInt (x.program.address (l.before m))) :
    Simulates x (j + 1) (l.before k) v (f.run calls j values) (Returned l base m v) := by
  obtain ⟨body, inner, found, compiled, rfl⟩ := Function.compile_eq_ok done
  rw [Listing.contains_append, Listing.contains_append, List.length_append, length_prologue few]
    at contains
  obtain ⟨⟨entry, inside⟩, leave⟩ := contains
  -- the end of the function, where its code and what returns from it meet
  obtain ⟨e, end_eq⟩ : ∃ e, e = k + (3 + f.parameters.length + inner.length) := ⟨_, rfl⟩
  rw [← end_eq] at leave
  simp only [epilogue] at leave
  rw [Listing.contains_cons] at leave
  obtain ⟨zero, leave⟩ := leave
  have ending : l.Marks (e + 1) (numbered σ.labels) := ⟨_, (Listing.contains_cons.1 leave).1⟩
  refine simulates_prologue assembled entry few count sp high passed fun base' v₁ above entered => ?_
  simp only [Function.run, found]
  refine (body.simulates assembled callable ending compiled inside entered.frame (Nat.le_refl _)
    (closed body found)).andThen fun flow n v₂ h => ?_
  cases flow with
  | next env =>
    obtain ⟨rfl, -⟩ := h.flow
    rw [Nat.add_assoc, ← end_eq]
    have denotes : (Value.int 0).Denotes base' 0 v₂ 0 := rfl
    have loaded := Value.goes_load assembled (h.sp ▸ entered.frame.sp) zero (by decide) denotes
    have quiet : Quiet v₂ (v₂.set .a0 0) := .set (by decide)
    exact .goes_free loaded quiet.output (simulates_leave assembled leave sp back above entered
      (quiet.sp.trans h.sp) (h.keeps.trans quiet.keeps) (View.get_set_self (by decide)))
  | left a =>
    obtain ⟨rfl, result⟩ := h.flow
    exact simulates_leave assembled leave sp back above entered h.sp h.keeps result

end Polyglot.B
