import Polyglot.Proofs.B.Slots

/-!
# The slots of values

A frame has the return address, then a slot for each name, and then the temporaries. What code reads
and writes next to the stack pointer is found in its lines (`reads`, `writes`), and is the same
whatever the code does when it runs.

Expressions differ in what they make of values, but all of them go about it in the same way: they
compute the values of their operands one after the other, load them, and then keep what they make of
them in the next temporary, if there is anything to keep (`Expression.compile_operands`). So what is
said of all expressions is told by induction on their operands (`Expression.induct`), and does not
look at what they make of values.

A value is in a temporary of its own or in the slot of a variable, and no expression writes to
either of them again. So it is still there when it is loaded (`Expression.settled`).
-/

namespace Polyglot.B

open Polyglot.Source
open Polyglot.Assembly (Line Listing Command Operand)
open Polyglot.Machine (Register Syscall)

/-! ## Lines -/

/-- The distances from the stack pointer at which a command reads. -/
def loaded : Command → List Int
  | .load _ .sp distance => [distance]
  | _ => []

/-- The commands of lines. -/
def commands (code : List Line) : List Command :=
  code.filterMap fun
    | .label .. => none
    | .instruction mnemonic operands span => (Command.ofLine mnemonic operands span).toOption

/-- The distances from the stack pointer at which code reads, line by line. -/
def reads (code : List Line) : List Int := (commands code).flatMap loaded

/-- The distances from the stack pointer at which code writes, line by line. -/
def writes (code : List Line) : List Int := (commands code).flatMap stored

section

variable {code code' : List Line} {value left right : Value} {r : Register} {n : Nat}

@[simp] theorem reads_append : reads (code ++ code') = reads code ++ reads code' := by
  rw [reads, commands, List.filterMap_append, List.flatMap_append]
  rfl

@[simp] theorem writes_append : writes (code ++ code') = writes code ++ writes code' := by
  rw [writes, commands, List.filterMap_append, List.flatMap_append]
  rfl

/-- Whether code neither reads nor writes next to the stack pointer. -/
def Idle (code : List Line) : Prop := reads code = [] ∧ writes code = []

theorem Idle.append (h : Idle code) (h' : Idle code') : Idle (code ++ code') := by
  rw [Idle, reads_append, writes_append, h.1, h.2, h'.1, h'.2]
  exact ⟨rfl, rfl⟩

theorem idle_place (name : String) : Idle [place name] := ⟨rfl, rfl⟩

theorem commands_line {c : Command} {mnemonic : String} {operands : List Operand}
    (checked : Command.ofLine mnemonic operands .start = .ok c) : commands [line mnemonic operands] = [c] := by
  simp [commands, line, checked]

/-- An instruction that does neither. -/
theorem idle_line {c : Command} {mnemonic : String} {operands : List Operand}
    (checked : Command.ofLine mnemonic operands .start = .ok c) (none : loaded c = []) (none' : stored c = []) :
    Idle [line mnemonic operands] := by
  rw [Idle, reads, writes, commands_line checked, List.flatMap_singleton, List.flatMap_singleton]
  exact ⟨none, none'⟩

theorem idle_registers (op : Operator) : Idle [line op.mnemonic [Register.t0, Register.t1, Register.t2]] :=
  idle_line (op.ofLine_mnemonic .t0 .t1 .t2) rfl rfl

theorem idle_withValue (op : Operator) (value : Int) :
    Idle [line (op.mnemonic ++ "v") [Register.t0, Register.t1, .int value]] :=
  idle_line (op.ofLine_mnemonic_with .t0 .t1 value) rfl rfl

/-- A jump on a condition, given what was loaded. -/
theorem idle_test (name : String) :
    Idle [line "eqv" [Register.t0, Register.t0, .int 0], line "jumpifv" [.label name, Register.t0]] :=
  (idle_line (c := .computeWith ⟨.eq, false⟩ .t0 .t0 0) rfl rfl rfl).append
    (idle_line (c := .jumpToIf (.label name) .t0) rfl rfl rfl)

theorem idle_jumpv (name : String) : Idle [line "jumpv" [.label name]] :=
  idle_line (c := .jumpTo (.label name)) rfl rfl rfl

@[simp] theorem reads_load : reads [value.load r] = match value with | .slot n => [(4 * n : Int)] | _ => [] := by
  cases value with
  | slot n => rw [reads, Value.load, commands_line (c := .load r .sp (4 * n)) rfl]; rfl
  | int value => exact (idle_line (c := .put r (.int value.toInt)) rfl rfl rfl).1
  | constant index => exact (idle_line (c := .put r (.constant index)) rfl rfl rfl).1

@[simp] theorem writes_load : writes [value.load r] = [] := by
  cases value with
  | slot n => rw [writes, Value.load, commands_line (c := .load r .sp (4 * n)) rfl]; rfl
  | int value => exact (idle_line (c := .put r (.int value.toInt)) rfl rfl rfl).2
  | constant index => exact (idle_line (c := .put r (.constant index)) rfl rfl rfl).2

@[simp] theorem reads_saveTo : reads [saveTo n r] = [] := by
  rw [reads, saveTo, commands_line (c := .store r .sp (4 * n)) rfl]; rfl

@[simp] theorem writes_saveTo : writes [saveTo n r] = [(4 * n : Int)] := by
  rw [writes, saveTo, commands_line (c := .store r .sp (4 * n)) rfl]; rfl

end

/-! ## Values that are loaded -/

/-- Whether lines do nothing but load values. -/
def Uses (values : List Value) (code : List Line) : Prop :=
  ∀ x ∈ code, ∃ value ∈ values, ∃ r, x = value.load r

namespace Uses

variable {values values' : List Value} {code : List Line}

theorem nil : Uses values [] := nofun

theorem single {value : Value} {r : Register} : Uses [value] [value.load r] :=
  List.forall_mem_singleton.2 ⟨value, List.mem_cons_self, r, rfl⟩

theorem zipWith (registers : List Register) (values : List Value) :
    Uses values (List.zipWith Value.load registers values) := by
  intro x mem
  obtain ⟨i, there⟩ := List.mem_iff_getElem?.1 mem
  obtain ⟨r, value, -, found, rfl⟩ := List.getElem?_zipWith_eq_some.1 there
  exact ⟨value, List.mem_of_getElem? found, r, rfl⟩

theorem writes_eq_nil (h : Uses values code) : writes code = [] := by
  induction code with
  | nil => rfl
  | cons x code ih =>
    obtain ⟨⟨value, -, r, rfl⟩, others⟩ := List.forall_mem_cons.1 h
    rw [← List.singleton_append, writes_append, writes_load, ih others]
    rfl

theorem exists_slot_of_mem_reads (h : Uses values code) {distance : Int} (mem : distance ∈ reads code) :
    ∃ n : Nat, .slot n ∈ values ∧ distance = 4 * n := by
  induction code with
  | nil => cases mem
  | cons x code ih =>
    obtain ⟨⟨value, among, r, rfl⟩, others⟩ := List.forall_mem_cons.1 h
    rw [← List.singleton_append, reads_append, List.mem_append, reads_load] at mem
    rcases mem with mem | mem
    · cases value with
      | slot n => exact ⟨n, among, List.mem_singleton.1 mem⟩
      | int | constant => cases mem
    · exact ih others mem

end Uses

/-! ## Operands -/

namespace Expression

/-- The expressions whose values an expression is made of. -/
def operands : Expression → List Expression
  | .negate operand => [operand]
  | .isZero operand => [operand]
  | .binary _ left right _ => [left, right]
  | .call _ arguments _ => arguments
  | .load base _ _ => [base]
  | .broken before _ _ => before
  | .integer .. | .text _ | .variable .. => []

mutual

/-- What holds of an expression if it holds of its operands holds of all. -/
theorem induct {P : Expression → Prop} (step : ∀ e, (∀ o ∈ e.operands, P o) → P e) (e : Expression) : P e := by
  refine step e ?_
  cases e with
  | negate operand => exact List.forall_mem_singleton.2 (induct step operand)
  | isZero operand => exact List.forall_mem_singleton.2 (induct step operand)
  | binary op left right span =>
    exact List.forall_mem_cons.2 ⟨induct step left, List.forall_mem_singleton.2 (induct step right)⟩
  | call callee arguments span => exact inductAll step arguments
  | load base offset span => exact List.forall_mem_singleton.2 (induct step base)
  | broken before defect span => exact inductAll step before
  | integer | text | «variable» => exact List.forall_mem_nil _

theorem inductAll {P : Expression → Prop} (step : ∀ e, (∀ o ∈ e.operands, P o) → P e) (es : List Expression) :
    ∀ e ∈ es, P e := by
  cases es with
  | nil => exact List.forall_mem_nil _
  | cons e es => exact List.forall_mem_cons.2 ⟨induct step e, inductAll step es⟩

end

/-- Whether an expression is another one or somewhere in it. -/
inductive Inside : Expression → Expression → Prop
  /-- It is the same. -/
  | refl {e : Expression} : Inside e e
  /-- It is in an operand. -/
  | operand {inner o e : Expression} : Inside inner o → o ∈ e.operands → Inside inner e

end Expression

/-! ## What is made of values -/

/-- Whether lines, behind those that have computed and loaded the values of operands, leave this
value, with these supplies before and after. -/
inductive Ending (s : Scope) (σ : Supply) : List Line → List Line → Value → Supply → Prop
  /-- The value is known, and there is nothing to do. -/
  | known {before : List Line} {value : Value} : (∀ n, value ≠ .slot n) → Ending s σ before [] value σ
  /-- The value is that of a variable, and there is nothing to do. -/
  | «variable» {name : String} : name ∈ s.names → Ending s σ [] [] (.slot (s.slot name)) σ
  /-- The value is kept in the next temporary. -/
  | kept {before code : List Line} {r : Register} {τ : Supply} : Idle code →
    τ.temporaries = σ.temporaries → τ.peak = σ.peak →
    Ending s σ before (code ++ [saveTo (s.names.length + (τ.temporaries + 1)) r])
      (.slot (s.names.length + (τ.temporaries + 1))) τ.kept

section

variable {s : Scope} {σ σ₁ σ' : Supply} {code code' : List Line} {value : Value} {values : List Value}
  {r : Register} {e : Expression} {es : List Expression}

/-- What is kept of values that have been loaded. -/
theorem ending_of_keep {τ : Supply} {before after : List Line} (uses : List Line) (idle : Idle after)
    (same : τ.temporaries = σ.temporaries) (same' : τ.peak = σ.peak)
    (kept : s.keep (before ++ (uses ++ after)) r τ = .ok ((code, value), σ')) :
    ∃ tail, code = before ++ uses ++ tail ∧ Ending s σ (before ++ uses) tail value σ' := by
  obtain ⟨rfl, rfl, rfl⟩ := eq_of_keep kept
  exact ⟨after ++ [saveTo _ r], by simp only [List.append_assoc], .kept idle same same'⟩

theorem compileAll_nil_eq_ok : compileAll s [] σ = .ok (([], []), σ) := by
  rw [compileAll]
  rfl

theorem compileAll_cons_eq_ok (first : e.compile s σ = .ok ((code, value), σ₁))
    (rest : compileAll s es σ₁ = .ok ((code', values), σ')) :
    compileAll s (e :: es) σ = .ok ((code ++ code', value :: values), σ') := by
  rw [compileAll]
  exact Emit.bind_eq_ok.2 ⟨_, _, first, Emit.bind_eq_ok.2 ⟨_, _, rest, rfl⟩⟩

theorem compileAll_one (done : e.compile s σ = .ok ((code, value), σ')) :
    compileAll s [e] σ = .ok ((code, [value]), σ') := by
  rw [compileAll_cons_eq_ok done compileAll_nil_eq_ok, List.append_nil]

theorem compileAll_two {e' : Expression} {value' : Value}
    (first : e.compile s σ = .ok ((code, value), σ₁)) (second : e'.compile s σ₁ = .ok ((code', value'), σ')) :
    compileAll s [e, e'] σ = .ok ((code ++ code', [value, value']), σ') :=
  compileAll_cons_eq_ok first (compileAll_one second)

/-- The lines of an operator load its values. -/
theorem exists_lines (op : Operator) (left right : Value) :
    ∃ uses after, op.lines left right = uses ++ after ∧ Uses [left, right] uses ∧ Idle after := by
  have first : Uses [left, right] [left.load .t1] :=
    List.forall_mem_singleton.2 ⟨left, List.mem_cons_self, .t1, rfl⟩
  have both : Uses [left, right] [left.load .t1, right.load .t2] :=
    List.forall_mem_cons.2 ⟨⟨left, List.mem_cons_self, .t1, rfl⟩,
      List.forall_mem_singleton.2 ⟨right, List.mem_cons_of_mem _ List.mem_cons_self, .t2, rfl⟩⟩
  cases right with
  | int value => exact ⟨_, _, rfl, first, idle_withValue op value.toInt⟩
  | slot | constant => exact ⟨[left.load .t1, Value.load .t2 _], _, rfl, both, idle_registers op⟩

/-- **An expression** computes its operands, loads their values and leaves its own. -/
theorem Expression.compile_operands (done : e.compile s σ = .ok ((code, value), σ')) :
    ∃ inner values σ₁ uses tail, compileAll s e.operands σ = .ok ((inner, values), σ₁)
      ∧ code = inner ++ uses ++ tail ∧ Uses values uses ∧ Ending s σ₁ (inner ++ uses) tail value σ' := by
  cases e with
  | integer n span =>
    obtain ⟨eq, rfl⟩ := Expression.compile_integer done
    obtain ⟨rfl, rfl⟩ := Prod.mk.inj eq
    exact ⟨[], [], _, [], [], compileAll_nil_eq_ok, rfl, .nil, .known nofun⟩
  | text text =>
    rw [Expression.compile_text] at done
    obtain ⟨eq, rfl⟩ := Prod.mk.inj (Emit.pure_eq_ok.1 done)
    obtain ⟨rfl, rfl⟩ := Prod.mk.inj eq
    exact ⟨[], [], _, [], [], compileAll_nil_eq_ok, rfl, .nil, .known nofun⟩
  | «variable» name span =>
    obtain ⟨mem, eq, rfl⟩ := Expression.compile_variable done
    obtain ⟨rfl, rfl⟩ := Prod.mk.inj eq
    exact ⟨[], [], _, [], [], compileAll_nil_eq_ok, rfl, .nil, .variable mem⟩
  | negate e =>
    obtain ⟨inner, a, σ₁, compiled, ⟨k, rfl, eq, rfl⟩ | kept⟩ := Expression.compile_negate done
    · obtain ⟨rfl, rfl⟩ := Prod.mk.inj eq
      exact ⟨code, _, _, [], [], compileAll_one compiled, by simp, .nil, .known nofun⟩
    · have idle : Idle [line "sub" [Register.t0, Register.zero, Register.t1]] :=
        idle_line (c := .compute ⟨.sub, false⟩ .t0 .zero .t1) rfl rfl rfl
      obtain ⟨tail, rfl, ending⟩ := ending_of_keep [a.load .t1] idle rfl rfl kept
      exact ⟨inner, [a], σ₁, _, tail, compileAll_one compiled, rfl, .single, ending⟩
  | isZero e =>
    obtain ⟨inner, a, σ₁, compiled, ⟨k, rfl, eq, rfl⟩ | kept⟩ := Expression.compile_isZero done
    · obtain ⟨rfl, rfl⟩ := Prod.mk.inj eq
      exact ⟨code, _, _, [], [], compileAll_one compiled, by simp, .nil, .known nofun⟩
    · have idle : Idle [line "not" [Register.t0, Register.t1]] :=
        idle_line (c := .isZero .t0 .t1) rfl rfl rfl
      obtain ⟨tail, rfl, ending⟩ := ending_of_keep [a.load .t1] idle rfl rfl kept
      exact ⟨inner, [a], σ₁, _, tail, compileAll_one compiled, rfl, .single, ending⟩
  | binary op left right span =>
    obtain ⟨inner, a, σ₁, inner', b, σ₂, first, second, -, ⟨known, folded, eq, rfl⟩ | kept⟩ :=
      Expression.compile_binary done
    · -- a result that is known is not computed: there is only the code of the operands
      obtain ⟨-, -, k, -, -, rfl, -⟩ := Operator.operands_of_fold? folded
      obtain ⟨rfl, rfl⟩ := Prod.mk.inj eq
      exact ⟨_, _, _, [], [], compileAll_two first second, by simp, .nil, .known nofun⟩
    · obtain ⟨uses, after, eq, loads, idle⟩ := exists_lines op a b
      rw [eq] at kept
      obtain ⟨tail, rfl, ending⟩ := ending_of_keep _ idle rfl rfl kept
      exact ⟨_, _, σ₂, uses, tail, compileAll_two first second, rfl, loads, ending⟩
  | call callee arguments span =>
    obtain ⟨inner, values, σ₁, -, compiled, ⟨host, -, kept⟩ | ⟨-, kept⟩⟩ := Expression.compile_call done
    · have idle : Idle [line "sysv" [.int host.number]] :=
        idle_line (c := .sysOf host.number) rfl rfl rfl
      obtain ⟨tail, rfl, ending⟩ := ending_of_keep _ idle rfl rfl kept
      exact ⟨inner, values, σ₁, _, tail, compiled, rfl, .zipWith _ _, ending⟩
    · have idle (back : String) : Idle [line "setv" [Register.ra, .label back],
          line "jumpv" [.label (functionLabel callee)], place back] :=
        (idle_line (c := .put .ra (.label back)) rfl rfl rfl).append
          ((idle_jumpv (functionLabel callee)).append (idle_place back))
      obtain ⟨tail, rfl, ending⟩ := ending_of_keep (σ := σ₁) (τ := σ₁.labeled) _ (idle (numbered σ₁.labels)) rfl rfl kept
      exact ⟨inner, values, σ₁, _, tail, compiled, rfl, .zipWith _ _, ending⟩
  | load base offset span =>
    obtain ⟨-, inner, a, σ₁, compiled, kept⟩ := Expression.compile_load done
    have idle : Idle [line "load" [Register.t0, Register.t1, .int offset]] :=
      idle_line (c := .load .t0 .t1 offset) rfl rfl rfl
    obtain ⟨tail, rfl, ending⟩ := ending_of_keep [a.load .t1] idle rfl rfl kept
    exact ⟨inner, [a], σ₁, _, tail, compileAll_one compiled, rfl, .single, ending⟩
  | broken before defect span => exact absurd done Expression.compile_broken_ne

end

/-! ## Temporaries -/

/-- The distances of the temporaries from one number on to another, the first of which is left out. -/
def Scope.temporaries (s : Scope) (low high : Nat) : List Int :=
  (List.range' (low + 1) (high - low)).map fun i => (4 * (s.names.length + i : Nat) : Int)

/-- Whether a distance is that of a name or of one of so many temporaries. -/
def Scope.IsSlot (s : Scope) (temporaries : Nat) (distance : Int) : Prop :=
  ∃ n : Nat, 1 ≤ n ∧ n ≤ s.names.length + temporaries ∧ distance = 4 * n

/-- Whether some code has made the slot in which it leaves a value: there is no code and it is that
of a variable, or the code ends with writing to it, and it is none of a variable. -/
def Scope.Makes (s : Scope) (code : List Line) (n : Nat) : Prop :=
  (code = [] ∧ ∃ name ∈ s.names, n = s.slot name)
    ∨ s.names.length < n ∧ ∃ before r, code = before ++ [saveTo n r]

section

variable {s : Scope} {σ σ₁ σ' : Supply} {code code' : List Line} {value : Value} {values : List Value}
  {r : Register} {e : Expression} {es : List Expression} {a b c : Nat} {distance : Int}

theorem temporaries_self : s.temporaries a a = [] := by
  rw [Scope.temporaries, Nat.sub_self]
  rfl

theorem temporaries_succ : s.temporaries a (a + 1) = [(4 * (s.names.length + (a + 1) : Nat) : Int)] := by
  rw [Scope.temporaries, Nat.add_sub_cancel_left]
  rfl

theorem temporaries_append (le : a ≤ b) (le' : b ≤ c) :
    s.temporaries a b ++ s.temporaries b c = s.temporaries a c := by
  obtain ⟨i, rfl⟩ := Nat.exists_eq_add_of_le le
  obtain ⟨j, rfl⟩ := Nat.exists_eq_add_of_le le'
  simp only [Scope.temporaries, ← List.map_append]
  rw [show a + i + j - a = i + j by omega, show a + i - a = i by omega,
    show a + i + j - (a + i) = j by omega, show a + i + 1 = a + 1 + i by omega, List.range'_append_1]

theorem mem_temporaries : distance ∈ s.temporaries a b
    ↔ ∃ i, a < i ∧ i ≤ b ∧ distance = (4 * (s.names.length + i : Nat) : Int) := by
  simp only [Scope.temporaries, List.mem_map, List.mem_range'_1]
  constructor
  · rintro ⟨i, ⟨low, high⟩, rfl⟩
    exact ⟨i, by omega, by omega, rfl⟩
  · rintro ⟨i, low, high, rfl⟩
    exact ⟨i, ⟨by omega, by omega⟩, rfl⟩

theorem nodup_temporaries : (s.temporaries a b).Nodup := by
  refine (List.nodup_range').map fun i j same => ?_
  have : (4 * (s.names.length + i : Nat) : Int) = (4 * (s.names.length + j : Nat) : Int) := same
  omega

theorem Scope.IsSlot.mono (h : s.IsSlot a distance) (le : a ≤ b) : s.IsSlot b distance := by
  obtain ⟨n, pos, small, rfl⟩ := h
  exact ⟨n, pos, by omega, rfl⟩

theorem isSlot_of_mem (mem : distance ∈ s.temporaries a b) : s.IsSlot b distance := by
  obtain ⟨i, low, high, rfl⟩ := mem_temporaries.1 mem
  exact ⟨s.names.length + i, by omega, by omega, rfl⟩

/-- What the code of an expression does next to the stack pointer. -/
structure Occupies (s : Scope) (σ : Supply) (code : List Line) (σ' : Supply) : Prop where
  /-- It writes to the temporaries that it takes, one after the other. -/
  writes : writes code = s.temporaries σ.temporaries σ'.temporaries
  /-- It reads what there is. -/
  reads : ∀ distance ∈ reads code, s.IsSlot σ'.temporaries distance
  /-- It does not give any temporary back. -/
  within : σ.Within σ'
  /-- All temporaries are counted. -/
  counted : σ.temporaries ≤ σ.peak → σ'.temporaries ≤ σ'.peak

/-- Whether a value is somewhere that code has made for it. -/
def Made (s : Scope) (σ : Supply) (code : List Line) (value : Value) : Prop :=
  ∀ n, value = .slot n → s.Makes code n ∧ 1 ≤ n ∧ n ≤ s.names.length + σ.temporaries

namespace Occupies

theorem nil : Occupies s σ [] σ := ⟨temporaries_self.symm, nofun, .refl, id⟩

theorem append (h : Occupies s σ code σ₁) (h' : Occupies s σ₁ code' σ') : Occupies s σ (code ++ code') σ' where
  writes := by
    rw [writes_append, h.writes, h'.writes, temporaries_append h.within.temporaries h'.within.temporaries]
  reads distance mem := by
    rw [reads_append, List.mem_append] at mem
    exact mem.elim (fun mem => (h.reads distance mem).mono h'.within.temporaries) (h'.reads distance)
  within := h.within.trans h'.within
  counted le := h'.counted (h.counted le)

theorem uses (loads : Uses values code) (made : ∀ value ∈ values, ∃ before, Made s σ before value) :
    Occupies s σ code σ where
  writes := by rw [loads.writes_eq_nil, temporaries_self]
  reads distance mem := by
    obtain ⟨n, among, rfl⟩ := loads.exists_slot_of_mem_reads mem
    obtain ⟨before, made⟩ := made _ among
    obtain ⟨-, pos, le⟩ := made n rfl
    exact ⟨n, pos, le, rfl⟩
  within := .refl
  counted := id

end Occupies

variable {before : List Line}

theorem Ending.occupies (h : Ending s σ before code value σ') : Occupies s σ code σ' := by
  cases h with
  | known | «variable» => exact .nil
  | @kept _ code r τ idle same same' =>
    refine ⟨?_, ?_, ⟨?_, ?_⟩, fun _ => Nat.le_max_right _ _⟩
    · rw [writes_append, idle.2, List.nil_append, writes_saveTo, ← same]
      exact temporaries_succ.symm
    · rw [reads_append, idle.1, List.nil_append, reads_saveTo]
      exact fun _ mem => absurd mem List.not_mem_nil
    · exact same ▸ τ.within_kept.temporaries
    · exact same' ▸ τ.within_kept.peak

theorem Ending.made (h : Ending s σ before code value σ') : Made s σ' (before ++ code) value := by
  intro n eq
  cases h with
  | known other => exact absurd eq (other n)
  | @«variable» name mem =>
    obtain rfl := Value.slot.inj eq
    exact ⟨.inl ⟨rfl, name, mem, rfl⟩, Nat.succ_pos _, Nat.le_add_right_of_le (slotOf_le mem)⟩
  | @kept _ code r τ idle same same' =>
    obtain rfl := Value.slot.inj eq
    exact ⟨.inr ⟨by omega, before ++ code, r, (List.append_assoc ..).symm⟩, by omega, Nat.le_refl _⟩

theorem Made.mono (h : Made s σ code value) (le : σ.temporaries ≤ σ'.temporaries) : Made s σ' code value := by
  intro n eq
  obtain ⟨makes, pos, small⟩ := h n eq
  exact ⟨makes, pos, by omega⟩

/-- What is known of expressions is known of a list of them. -/
theorem occupiesAll (each : ∀ o ∈ es, ∀ {σ σ' : Supply} {code : List Line} {value : Value},
      o.compile s σ = .ok ((code, value), σ') → Occupies s σ code σ' ∧ Made s σ' code value)
    (done : compileAll s es σ = .ok ((code, values), σ')) :
    Occupies s σ code σ' ∧ ∀ value ∈ values, ∃ before, Made s σ' before value := by
  induction es generalizing σ code values with
  | nil =>
    obtain ⟨eq, rfl⟩ := compileAll_nil done
    obtain ⟨rfl, rfl⟩ := Prod.mk.inj eq
    exact ⟨.nil, List.forall_mem_nil _⟩
  | cons e es ih =>
    obtain ⟨first, value, σ₁, rest, values, compiled, others, eq⟩ := compileAll_cons done
    obtain ⟨rfl, rfl⟩ := Prod.mk.inj eq
    obtain ⟨each, eachOther⟩ := List.forall_mem_cons.1 each
    obtain ⟨occupies, made⟩ := each compiled
    obtain ⟨occupies', made'⟩ := ih eachOther others
    exact ⟨occupies.append occupies',
      List.forall_mem_cons.2 ⟨⟨first, made.mono occupies'.within.temporaries⟩, made'⟩⟩

/-- **The code of an expression** writes to the temporaries that it takes, each once, and its value is
in the last of them unless it is known or that of a variable. -/
theorem Expression.occupies (e : Expression) : ∀ {σ σ' : Supply} {code : List Line} {value : Value},
    e.compile s σ = .ok ((code, value), σ') → Occupies s σ code σ' ∧ Made s σ' code value := by
  induction e using Expression.induct with
  | step e ih =>
    intro σ σ' code value done
    obtain ⟨inner, values, σ₁, uses, tail, compiled, rfl, loads, ending⟩ := Expression.compile_operands done
    obtain ⟨occupies, made⟩ := occupiesAll ih compiled
    exact ⟨(occupies.append (.uses loads made)).append ending.occupies, ending.made⟩

/-- The code of one of several expressions. -/
theorem compileAll_append {es' : List Expression}
    (done : compileAll s (es ++ e :: es') σ = .ok ((code, values), σ')) :
    ∃ before σ₁ inner value σ₂ after values', e.compile s σ₁ = .ok ((inner, value), σ₂)
      ∧ compileAll s es' σ₂ = .ok ((after, values'), σ') ∧ code = before ++ inner ++ after
      ∧ values[es.length]? = some value := by
  induction es generalizing σ code values with
  | nil =>
    obtain ⟨inner, value, σ₁, rest, values, compiled, others, eq⟩ := compileAll_cons done
    obtain ⟨rfl, rfl⟩ := Prod.mk.inj eq
    exact ⟨[], σ, inner, value, σ₁, rest, values, compiled, others, rfl, rfl⟩
  | cons first es ih =>
    obtain ⟨code₁, value₁, σ₁, rest, values, -, others, eq⟩ := compileAll_cons done
    obtain ⟨rfl, rfl⟩ := Prod.mk.inj eq
    obtain ⟨before, σ₁, inner, value, σ₂, after, values', compiled, others', rfl, there⟩ := ih others
    exact ⟨code₁ ++ before, σ₁, inner, value, σ₂, after, values', compiled, others',
      by simp only [List.append_assoc], there⟩

/-! ## Values that are used -/

/-- Whether code computes the values of expressions one after the other, and loads them after that,
and nothing is written to where one of them is from when it is made until then. -/
structure Settles (s : Scope) (σ : Supply) (es : List Expression) (code uses : List Line) : Prop where
  /-- The values are computed and loaded. -/
  loads : ∃ values σ', compileAll s es σ = .ok ((code, values), σ') ∧ Uses values uses
  /-- All that is written are temporaries, each once. -/
  nodup : (writes code).Nodup
  /-- No temporary is where a variable is. -/
  other : ∀ distance ∈ writes code, ∀ name ∈ s.names, distance ≠ distanceOf s.names name
  /-- A value is not written over. -/
  keeps : ∀ before e after, es = before ++ e :: after →
    ∃ code₁ own code₂ σ₁ σ₂ value, code = code₁ ++ own ++ code₂ ∧ e.compile s σ₁ = .ok ((own, value), σ₂)
      ∧ ∀ n : Nat, value = .slot n → s.Makes own n ∧ (4 * n : Int) ∉ writes (code₂ ++ uses)

/-- **Values are kept** until they are used. -/
theorem settles_of_compileAll {uses : List Line} (done : compileAll s es σ = .ok ((code, values), σ'))
    (loads : Uses values uses) : Settles s σ es code uses := by
  have occupies := (occupiesAll (fun e _ => e.occupies) done).1
  refine ⟨⟨values, σ', done, loads⟩, ?_, fun distance mem name named eq => ?_, ?_⟩
  · rw [occupies.writes]
    exact nodup_temporaries
  · rw [occupies.writes] at mem
    obtain ⟨i, low, -, rfl⟩ := mem_temporaries.1 mem
    have le := slotOf_le named
    unfold distanceOf at eq
    omega
  · rintro before e after rfl
    obtain ⟨code₁, σ₁, own, value, σ₂, code₂, values', compiled, others, rfl, -⟩ := compileAll_append done
    refine ⟨code₁, own, code₂, σ₁, σ₂, value, rfl, compiled, fun n eq => ?_⟩
    obtain ⟨makes, -, small⟩ := (e.occupies compiled).2 n eq
    refine ⟨makes, fun mem => ?_⟩
    rw [writes_append, loads.writes_eq_nil, List.append_nil,
      (occupiesAll (fun e _ => e.occupies) others).1.writes] at mem
    obtain ⟨i, low, -, eq⟩ := mem_temporaries.1 mem
    omega

/-- Whether the code of an expression computes and loads the values of its operands, and then reads
nothing more. -/
def Expression.Settled (s : Scope) (σ : Supply) (e : Expression) (code : List Line) : Prop :=
  ∃ inner uses tail, code = inner ++ uses ++ tail ∧ Settles s σ e.operands inner uses ∧ reads tail = []

theorem Ending.reads_eq_nil (h : Ending s σ before code value σ') : reads code = [] := by
  cases h with
  | known | «variable» => rfl
  | kept idle => rw [reads_append, idle.1, List.nil_append, reads_saveTo]

theorem Expression.settled (done : e.compile s σ = .ok ((code, value), σ')) : e.Settled s σ code := by
  obtain ⟨inner, values, σ₁, uses, tail, compiled, rfl, loads, ending⟩ := Expression.compile_operands done
  exact ⟨inner, uses, tail, rfl, settles_of_compileAll compiled loads, ending.reads_eq_nil⟩

/-- The code of an expression somewhere in another one is a part of its code. -/
theorem Expression.Inside.exists_code {inner : Expression} (h : inner.Inside e)
    (done : e.compile s σ = .ok ((code, value), σ')) :
    ∃ σ₁ own value' σ₂, inner.compile s σ₁ = .ok ((own, value'), σ₂) ∧ own <:+: code := by
  induction h generalizing σ code value σ' with
  | refl => exact ⟨σ, code, value, σ', done, List.infix_rfl⟩
  | operand _ mem ih =>
    obtain ⟨es, es', eq⟩ := List.append_of_mem mem
    obtain ⟨code', values, σ₁, uses, tail, compiled, rfl, -⟩ := Expression.compile_operands done
    rw [eq] at compiled
    obtain ⟨code₁, σ₂, own, value', σ₃, code₂, -, there, -, rfl, -⟩ := compileAll_append compiled
    obtain ⟨τ, part, value'', τ', here, among⟩ := ih there
    refine ⟨τ, part, value'', τ', here, among.trans ?_⟩
    exact ⟨code₁, code₂ ++ uses ++ tail, by simp only [List.append_assoc]⟩

end

end Polyglot.B
