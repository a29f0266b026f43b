import Polyglot.Proofs.B.Assignment
import Polyglot.Proofs.B.Layout

/-!
# The layout of frames

A frame has the return address, then a slot for each name, and then as many temporaries as the most
demanding statement needs. How large it is turns out only when the last statement has been compiled, for every
statement begins with the first temporary again, and the parts of a statement are statements.

Like an expression, a statement computes and loads the values of its operands before it does anything
else, and only then goes on with its parts (`Statement.compile_operands`). What is said of all
statements is told by induction on their parts (`Statement.induct`). From it follows what all functions
of a program make of their frames (`compile_frames`).
-/

namespace Polyglot.B

open Polyglot.Assembly (Line Listing Command Operand)
open Polyglot.Machine (Register)

section

variable {s : Scope} {σ σ₁ σ' : Supply} {code code' : List Line} {value : Value} {values : List Value}
  {e : Expression} {m n : Nat} {distance : Int}

/-! ## Statements -/

namespace Statement

/-- The expressions whose values a statement uses. -/
def operands : Statement → List Expression
  | .whileLoop condition _ => [condition]
  | .ifThen condition _ => [condition]
  | .ifElse condition _ _ => [condition]
  | .ret value => value.toList
  | .assign _ value => [value]
  | .store base _ _ value => [base, value]
  | .call e => [e]
  | .broken before _ _ => before
  | .block _ | .skip => []

/-- The statements that a statement is made of. -/
def parts : Statement → List Statement
  | .block body => body
  | .whileLoop _ body => [body]
  | .ifThen _ positive => [positive]
  | .ifElse _ positive negative => [positive, negative]
  | .ret _ | .assign .. | .store .. | .call _ | .skip | .broken .. => []

mutual

/-- What holds of a statement if it holds of its parts holds of all. -/
theorem induct {P : Statement → Prop} (step : ∀ b, (∀ part ∈ b.parts, P part) → P b) (b : Statement) : P b := by
  refine step b ?_
  cases b with
  | block body => exact inductAll step body
  | whileLoop condition body => exact List.forall_mem_singleton.2 (induct step body)
  | ifThen condition positive => exact List.forall_mem_singleton.2 (induct step positive)
  | ifElse condition positive negative =>
    exact List.forall_mem_cons.2 ⟨induct step positive, List.forall_mem_singleton.2 (induct step negative)⟩
  | ret | assign | store | call | skip | broken => exact List.forall_mem_nil _

theorem inductAll {P : Statement → Prop} (step : ∀ b, (∀ part ∈ b.parts, P part) → P b) (bs : List Statement) :
    ∀ b ∈ bs, P b := by
  cases bs with
  | nil => exact List.forall_mem_nil _
  | cons b bs => exact List.forall_mem_cons.2 ⟨induct step b, inductAll step bs⟩

end

/-- Whether a statement is another one or somewhere in it. -/
inductive Inside : Statement → Statement → Prop
  /-- It is the same. -/
  | refl {b : Statement} : Inside b b
  /-- It is in a part. -/
  | part {inner part b : Statement} : Inside inner part → part ∈ b.parts → Inside inner b

end Statement

theorem mem_targetsAll {bs : List Statement} {b : Statement} (mem : b ∈ bs) {name : String}
    (among : name ∈ b.targets) : name ∈ targetsAll bs := by
  induction bs with
  | nil => cases mem
  | cons first bs ih =>
    rcases List.mem_cons.1 mem with rfl | mem
    · exact List.mem_append_left _ among
    · exact List.mem_append_right _ (ih mem)

/-- What a part of a statement assigns is assigned in the statement. -/
theorem Statement.mem_targets {part b : Statement} (mem : part ∈ b.parts) {name : String}
    (among : name ∈ part.targets) : name ∈ b.targets := by
  cases b with
  | block body => exact mem_targetsAll mem among
  | whileLoop condition body => exact List.mem_singleton.1 mem ▸ among
  | ifThen condition positive => exact List.mem_singleton.1 mem ▸ among
  | ifElse condition positive negative =>
    rcases List.mem_pair.1 mem with rfl | rfl
    · exact List.mem_append_left _ among
    · exact List.mem_append_right _ among
  | ret | assign | store | call | skip | broken => cases mem

/-- Whether lines are those of statements one after the other, with some between them that have
nothing to do with the frame. -/
inductive Nested (s : Scope) : List Statement → Supply → List Line → Supply → Prop
  /-- There is no statement. -/
  | nil {σ : Supply} : Nested s [] σ [] σ
  /-- There is a statement, and then there are others. -/
  | cons {b : Statement} {bs : List Statement} {σ σ₁ σ₂ σ' : Supply} {code after rest : List Line} :
    b.compile s σ = .ok (code, σ₁) → Idle after → σ₂.peak = σ₁.peak → Nested s bs σ₂ rest σ' →
    Nested s (b :: bs) σ (code ++ after ++ rest) σ'

variable {b : Statement} {bs : List Statement}

theorem nested_of_compileBlock (done : compileBlock s bs σ = .ok (code, σ')) : Nested s bs σ code σ' := by
  induction bs generalizing σ code with
  | nil =>
    obtain ⟨rfl, rfl⟩ := compileBlock_nil done
    exact .nil
  | cons b bs ih =>
    obtain ⟨first, σ₁, rest, compiled, others, rfl⟩ := compileBlock_cons done
    have nested : Nested s (b :: bs) σ (first ++ [] ++ rest) σ' := .cons compiled ⟨rfl, rfl⟩ rfl (ih others)
    rwa [List.append_nil] at nested

/-- One statement, and lines that have nothing to do with the frame. -/
theorem Nested.single {after : List Line} (done : b.compile s σ = .ok (code, σ')) (idle : Idle after) :
    Nested s [b] σ (code ++ after) σ' := by
  have nested : Nested s [b] σ (code ++ after ++ []) σ' := .cons done idle rfl .nil
  rwa [List.append_nil] at nested

/-- What a statement itself does with the values of its operands. -/
structure Acts (s : Scope) (b : Statement) (own : List Line) : Prop where
  /-- It reads no other slot. -/
  reads : reads own = []
  /-- It writes to no slot but that of what it assigns. -/
  writes : ∀ distance ∈ writes own, ∃ target value, b = .assign target value ∧ distance = distanceOf s.names target

theorem Acts.of_idle {own : List Line} (idle : Idle own) : Acts s b own :=
  ⟨idle.1, fun _ mem => absurd (idle.2 ▸ mem) List.not_mem_nil⟩

/-- **A statement** computes its operands from the first temporary on, loads their values, does
something with them, and goes on with its parts. -/
theorem Statement.compile_operands (done : b.compile s σ = .ok (code, σ')) :
    ∃ σ₀ before inner values σ₁ uses own rest, code = before ++ (inner ++ uses) ++ own ++ rest
      ∧ σ₀.temporaries = 0 ∧ Idle before ∧ compileAll s b.operands σ₀ = .ok ((inner, values), σ₁)
      ∧ Uses values uses ∧ Acts s b own ∧ Nested s b.parts σ₁ rest σ' := by
  cases b with
  | block body =>
    exact ⟨σ.released, [], [], [], σ.released, [], [], code, rfl, rfl, ⟨rfl, rfl⟩, compileAll_nil_eq_ok, .nil,
      .of_idle ⟨rfl, rfl⟩, nested_of_compileBlock (Statement.compile_block done)⟩
  | whileLoop condition body =>
    obtain ⟨start, ending, test, value, σ₁, inner, tested, compiled, rfl, rfl, rfl⟩ :=
      Statement.compile_whileLoop done
    exact ⟨_, [place (numbered σ.labels)], test, [value], σ₁, [value.load .t0], _, inner ++ _,
      by simp only [jumpUnless, List.append_assoc, List.cons_append, List.nil_append], rfl, idle_place _,
      compileAll_one tested, .single, .of_idle (idle_test (numbered (σ.labels + 1))),
      .single compiled ((idle_jumpv (numbered σ.labels)).append (idle_place (numbered (σ.labels + 1))))⟩
  | ifThen condition positive =>
    obtain ⟨otherwise, test, value, σ₁, inner, tested, compiled, rfl, rfl⟩ := Statement.compile_ifThen done
    exact ⟨_, [], test, [value], σ₁, [value.load .t0], _, inner ++ _,
      by simp only [jumpUnless, List.append_assoc, List.cons_append, List.nil_append], rfl, ⟨rfl, rfl⟩,
      compileAll_one tested, .single, .of_idle (idle_test (numbered σ.labels)),
      .single compiled (idle_place (numbered σ.labels))⟩
  | ifElse condition positive negative =>
    obtain ⟨otherwise, ending, test, value, σ₁, first, σ₂, second, tested, compiled, compiled', rfl, rfl, rfl⟩ :=
      Statement.compile_ifElse done
    -- the second label is given out between the branches
    have last : Nested s [negative] σ₂.labeled (second ++ [place (numbered σ₂.labels)]) σ' :=
      .single compiled' (idle_place _)
    exact ⟨_, [], test, [value], σ₁, [value.load .t0], _,
      first ++ ([line "jumpv" [.label (numbered σ₂.labels)]] ++ [place (numbered σ.labels)])
        ++ (second ++ [place (numbered σ₂.labels)]),
      by simp only [jumpUnless, List.append_assoc, List.cons_append, List.nil_append], rfl, ⟨rfl, rfl⟩,
      compileAll_one tested, .single, .of_idle (idle_test (numbered σ.labels)),
      .cons compiled ((idle_jumpv _).append (idle_place _)) (rfl : σ₂.labeled.peak = σ₂.peak) last⟩
  | ret value =>
    cases value with
    | none =>
      obtain ⟨rfl, rfl⟩ := Statement.compile_ret_none done
      have zero : Idle [Value.load .a0 (.int 0)] := ⟨reads_load, writes_load⟩
      exact ⟨σ.released, [], [], [], σ.released, [], _, [], (List.append_nil _).symm, rfl, ⟨rfl, rfl⟩,
        compileAll_nil_eq_ok, .nil, .of_idle (zero.append (idle_jumpv _)), .nil⟩
    | some e =>
      obtain ⟨inner, value, compiled, rfl⟩ := Statement.compile_ret_some done
      exact ⟨_, [], inner, [value], σ', [value.load .a0], _, [],
        by simp only [List.append_assoc, List.cons_append, List.nil_append, List.append_nil], rfl, ⟨rfl, rfl⟩,
        compileAll_one compiled, .single, .of_idle (idle_jumpv s.ending), .nil⟩
  | assign target e =>
    obtain ⟨inner, value, compiled, rfl⟩ := Statement.compile_assign done
    refine ⟨_, [], inner, [value], σ', [value.load .t0], [saveTo (s.slot target) .t0], [],
      by simp only [List.append_assoc, List.cons_append, List.nil_append, List.append_nil], rfl, ⟨rfl, rfl⟩,
      compileAll_one compiled, .single, ⟨reads_saveTo, fun distance mem => ?_⟩, .nil⟩
    -- the one place of its own that a statement writes to is that of the variable it assigns
    rw [writes_saveTo] at mem
    exact ⟨target, e, rfl, List.mem_singleton.1 mem⟩
  | store base offset span e =>
    obtain ⟨small, first, address, σ₁, second, value, compiled, compiled', rfl⟩ := Statement.compile_store done
    have uses : Uses [address, value] [address.load .t0, value.load .t1] :=
      List.forall_mem_cons.2 ⟨⟨address, List.mem_cons_self, .t0, rfl⟩,
        List.forall_mem_singleton.2 ⟨value, List.mem_cons_of_mem _ List.mem_cons_self, .t1, rfl⟩⟩
    exact ⟨_, [], first ++ second, [address, value], σ', _, [line "store" [Register.t1, Register.t0, .int offset]],
      [], by simp only [List.append_assoc, List.cons_append, List.nil_append, List.append_nil], rfl, ⟨rfl, rfl⟩,
      compileAll_two compiled compiled', uses, .of_idle (idle_line (c := .store .t1 .t0 offset) rfl rfl rfl), .nil⟩
  | call e =>
    obtain ⟨value, compiled⟩ := Statement.compile_call done
    exact ⟨_, [], code, [value], σ', [], [], [], by simp only [List.append_nil, List.nil_append], rfl, ⟨rfl, rfl⟩,
      compileAll_one compiled, List.forall_mem_nil _, .of_idle ⟨rfl, rfl⟩, .nil⟩
  | skip =>
    obtain ⟨rfl, rfl⟩ := Statement.compile_skip done
    exact ⟨σ.released, [], [], [], σ.released, [], [], [], rfl, rfl, ⟨rfl, rfl⟩, compileAll_nil_eq_ok, .nil,
      .of_idle ⟨rfl, rfl⟩, .nil⟩
  | broken before defect span => exact absurd done Statement.compile_broken_ne

/-- Where code reads and writes next to the stack pointer, all of it is in the slots of the names and of so
many temporaries. -/
structure Keeps (s : Scope) (temporaries : Nat) (code : List Line) : Prop where
  /-- What it reads. -/
  reads : ∀ distance ∈ reads code, s.IsSlot temporaries distance
  /-- What it writes. -/
  writes : ∀ distance ∈ writes code, s.IsSlot temporaries distance

namespace Keeps

theorem append (h : Keeps s m code) (h' : Keeps s m code') : Keeps s m (code ++ code') where
  reads distance mem := by
    rw [reads_append, List.mem_append] at mem
    exact mem.elim (h.reads distance) (h'.reads distance)
  writes distance mem := by
    rw [writes_append, List.mem_append] at mem
    exact mem.elim (h.writes distance) (h'.writes distance)

theorem mono (h : Keeps s m code) (le : m ≤ n) : Keeps s n code :=
  ⟨fun distance mem => (h.reads distance mem).mono le, fun distance mem => (h.writes distance mem).mono le⟩

theorem of_idle (idle : Idle code) : Keeps s m code := by
  refine ⟨fun distance mem => ?_, fun distance mem => ?_⟩
  · exact absurd (idle.1 ▸ mem) List.not_mem_nil
  · exact absurd (idle.2 ▸ mem) List.not_mem_nil

end Keeps

theorem Occupies.keeps (h : Occupies s σ code σ') : Keeps s σ'.temporaries code :=
  ⟨h.reads, fun _ mem => isSlot_of_mem (h.writes ▸ mem)⟩

/-- What a statement itself does is in the slots of the names, if what it assigns is one of them. -/
theorem Acts.keeps (h : Acts s b code) (named : ∀ name ∈ b.targets, name ∈ s.names) : Keeps s m code where
  reads distance mem := absurd (h.reads ▸ mem) List.not_mem_nil
  writes distance mem := by
    obtain ⟨target, value, rfl, rfl⟩ := h.writes distance mem
    have le := slotOf_le (named target (List.mem_singleton_self target))
    exact ⟨slotOf s.names target, Nat.succ_pos _, Nat.le_add_right_of_le le, by rw [distanceOf]⟩

/-- What is known of statements is known of them one after the other. -/
theorem Nested.keeps {bs : List Statement} (h : Nested s bs σ code σ')
    (each : ∀ b ∈ bs, ∀ {σ σ' : Supply} {code : List Line}, b.compile s σ = .ok (code, σ') →
      Keeps s σ'.peak code) : Keeps s σ'.peak code ∧ σ.peak ≤ σ'.peak := by
  induction h with
  | nil => exact ⟨.of_idle ⟨rfl, rfl⟩, Nat.le_refl _⟩
  | @cons b bs σ σ₁ σ₂ σ' code after rest compiled idle same others ih =>
    obtain ⟨first, each⟩ := List.forall_mem_cons.1 each
    obtain ⟨keeps, le⟩ := ih each
    rw [same] at le
    exact ⟨(((first compiled).mono le).append (.of_idle idle)).append keeps, (b.peak_le compiled).trans le⟩

/-- **The code of a statement** reads and writes only the slots of the names and those of as many
temporaries as were ever in use. -/
theorem Statement.keeps (b : Statement) (named : ∀ name ∈ b.targets, name ∈ s.names) :
    ∀ {σ σ' : Supply} {code : List Line}, b.compile s σ = .ok (code, σ') → Keeps s σ'.peak code := by
  induction b using Statement.induct with
  | step b ih =>
    intro σ σ' code done
    obtain ⟨σ₀, before, inner, values, σ₁, uses, own, rest, rfl, zero, idle, compiled, loads, acts, nested⟩ :=
      Statement.compile_operands done
    obtain ⟨occupies, made⟩ := occupiesAll (fun e _ => e.occupies) compiled
    obtain ⟨keeps, le⟩ := nested.keeps fun part mem =>
      ih part mem fun name among => named name (Statement.mem_targets mem among)
    have few : σ₁.temporaries ≤ σ'.peak :=
      (occupies.counted (zero ▸ Nat.zero_le _)).trans le
    have first : Keeps s σ'.peak (inner ++ uses) := ((occupies.append (.uses loads made)).keeps).mono few
    exact (((Keeps.of_idle idle).append first).append (acts.keeps named)).append keeps

/-- Whether the code of a statement computes and loads the values of its operands, from the first
temporary on, and reads nothing more until it goes on with its parts. -/
def Statement.Settled (s : Scope) (b : Statement) (code : List Line) : Prop :=
  ∃ σ before inner uses own rest σ₁ σ₂, code = before ++ (inner ++ uses) ++ own ++ rest ∧ Idle before
    ∧ σ.temporaries = 0 ∧ Settles s σ b.operands inner uses ∧ reads own = [] ∧ Nested s b.parts σ₁ rest σ₂

theorem Statement.settled (done : b.compile s σ = .ok (code, σ')) : b.Settled s code := by
  obtain ⟨σ₀, before, inner, values, σ₁, uses, own, rest, rfl, zero, idle, compiled, loads, acts, nested⟩ :=
    Statement.compile_operands done
  exact ⟨σ₀, before, inner, uses, own, rest, σ₁, σ', rfl, idle, zero, settles_of_compileAll compiled loads,
    acts.reads, nested⟩

/-- The code of one of several statements is a part of theirs. -/
theorem Nested.exists_code (h : Nested s bs σ code σ') (mem : b ∈ bs) :
    ∃ σ₁ own σ₂, b.compile s σ₁ = .ok (own, σ₂) ∧ own <:+: code := by
  induction h with
  | nil => cases mem
  | @cons first bs σ σ₁ σ₂ σ' code after rest compiled idle same others ih =>
    rcases List.mem_cons.1 mem with rfl | mem
    · exact ⟨σ, code, σ₁, compiled, [], after ++ rest, by simp only [List.nil_append, List.append_assoc]⟩
    · obtain ⟨τ, own, τ', compiled', among⟩ := ih mem
      exact ⟨τ, own, τ', compiled', among.trans (List.suffix_append ..).isInfix⟩

/-- The code of a statement somewhere in another one is a part of its code. -/
theorem Statement.Inside.exists_code {inner : Statement} (h : inner.Inside b)
    (done : b.compile s σ = .ok (code, σ')) :
    ∃ σ₁ own σ₂, inner.compile s σ₁ = .ok (own, σ₂) ∧ own <:+: code := by
  induction h generalizing σ code σ' with
  | refl => exact ⟨σ, code, σ', done, List.infix_rfl⟩
  | part _ mem ih =>
    obtain ⟨σ₀, before, code', values, σ₁, uses, own, rest, rfl, -, -, -, -, -, nested⟩ :=
      Statement.compile_operands done
    obtain ⟨σ₂, own', σ₃, there, among⟩ := nested.exists_code mem
    obtain ⟨τ, part, τ', here, among'⟩ := ih there
    exact ⟨τ, part, τ', here, among'.trans (among.trans (List.suffix_append ..).isInfix)⟩

/-- The code of an operand is a part of the code of its statement. -/
theorem Statement.exists_code_of_mem_operands (done : b.compile s σ = .ok (code, σ')) (mem : e ∈ b.operands) :
    ∃ σ₁ own value σ₂, e.compile s σ₁ = .ok ((own, value), σ₂) ∧ own <:+: code := by
  obtain ⟨σ₀, before, inner, values, σ₁, uses, own, rest, rfl, -, -, compiled, -⟩ := Statement.compile_operands done
  obtain ⟨es, es', eq⟩ := List.append_of_mem mem
  rw [eq] at compiled
  obtain ⟨code₁, σ₂, here, value, σ₃, code₂, -, there, -, rfl, -⟩ := compileAll_append compiled
  exact ⟨σ₂, here, value, σ₃, there, before ++ code₁, code₂ ++ uses ++ own ++ rest,
    by simp only [List.append_assoc]⟩

end

/-! ## Functions -/

/-- What a function makes of its frame. -/
structure Framed (s : Scope) (f : Function) (frame : Nat) (body : Statement) (inner code : List Line) : Prop where
  /-- The frame is made first and given up last. -/
  parts : code = prologue f frame ++ inner ++ epilogue s.ending frame
  /-- Every word that is read or written next to the stack pointer is in the frame. -/
  within : ∀ distance, distance ∈ reads code ∨ distance ∈ writes code →
    0 ≤ distance ∧ distance < frame ∧ 4 ∣ distance
  /-- The return address is written before all else, and nothing else is written there. -/
  address : ∃ others, writes code = 0 :: others ∧ 0 ∉ others
  /-- Different names have different slots. -/
  distinct : ∀ name ∈ f.names, ∀ other ∈ f.names, distanceOf f.names name = distanceOf f.names other → name = other
  /-- The values that statements use are kept until they are used. -/
  statements : ∀ b : Statement, b.Inside body → ∃ σ own σ', b.compile s σ = .ok (own, σ') ∧ own <:+: inner
    ∧ b.Settled s own
  /-- The values that expressions use are kept until they are used. -/
  expressions : ∀ b : Statement, b.Inside body → ∀ o ∈ b.operands, ∀ e : Expression, e.Inside o →
    ∃ σ own value σ', e.compile s σ = .ok ((own, value), σ') ∧ own <:+: inner ∧ e.Settled s σ own

section

variable {f : Function} {frame m : Nat} {ending : String}

theorem idle_addv (value : Int) : Idle [line "addv" [Register.sp, Register.sp, .int value]] :=
  idle_line (c := .computeWith ⟨.add, false⟩ .sp .sp value) rfl rfl rfl

/-- The parameters go to the slots of their names. -/
theorem keeps_parameters {s : Scope} {parameters : List String} (named : ∀ name ∈ parameters, name ∈ s.names)
    (registers : List Register) :
    Keeps s m (List.zipWith (fun r name => saveTo (slotOf s.names name) r) registers parameters) := by
  induction registers generalizing parameters with
  | nil => exact .of_idle ⟨rfl, rfl⟩
  | cons r registers ih =>
    cases parameters with
    | nil => exact .of_idle ⟨rfl, rfl⟩
    | cons name parameters =>
      obtain ⟨first, others⟩ := List.forall_mem_cons.1 named
      have saved : Keeps s m [saveTo (slotOf s.names name) r] := by
        refine ⟨fun distance mem => ?_, fun distance mem => ?_⟩
        · rw [reads_saveTo] at mem
          cases mem
        · rw [writes_saveTo, List.mem_singleton] at mem
          exact ⟨_, Nat.succ_pos _, Nat.le_add_right_of_le (slotOf_le first), mem⟩
      exact saved.append (ih others)

/-- Only the first of the lines that start a function writes to where the return address is. -/
theorem exists_prologue (f : Function) (frame : Nat) : ∃ before after, prologue f frame = before ++ after
    ∧ reads before = [] ∧ writes before = [0]
    ∧ ∀ {s : Scope} {m : Nat}, s.names = f.names → Keeps s m after := by
  have idle : Idle [place (functionLabel f.name), line "addv" [Register.sp, Register.sp, .int (-frame)]] :=
    (idle_place _).append (idle_addv _)
  refine ⟨[place (functionLabel f.name), line "addv" [Register.sp, Register.sp, .int (-frame)]] ++ [saveTo 0 .ra],
    _, rfl, ?_, ?_, fun {s m} same => ?_⟩
  · rw [reads_append, idle.1, reads_saveTo]
    rfl
  · rw [writes_append, idle.2, writes_saveTo]
    rfl
  · rw [← same]
    refine keeps_parameters (fun name mem => ?_) _
    rw [same, Function.names, List.mem_eraseDups]
    exact List.mem_append_left _ mem

/-- The lines that end a function read the return address. -/
theorem reads_epilogue : reads (epilogue ending frame) = [0] ∧ writes (epilogue ending frame) = [] := by
  have idle : Idle ([line "addv" [Register.sp, Register.sp, .int frame]] ++ [line "jump" [Register.ra]]) :=
    (idle_addv _).append (idle_line (c := .jump .ra) rfl rfl rfl)
  have lines : epilogue ending frame = [Value.load .a0 (.int 0)] ++ [place ending] ++ [Value.load .ra (.slot 0)]
    ++ ([line "addv" [Register.sp, Register.sp, .int frame]] ++ [line "jump" [Register.ra]]) := rfl
  rw [lines]
  simp only [reads_append, writes_append, reads_load, writes_load, idle.1, idle.2, (idle_place ending).1,
    (idle_place ending).2]
  exact ⟨rfl, rfl⟩

theorem Scope.IsSlot.ne_zero {s : Scope} {distance : Int} (h : s.IsSlot m distance) : distance ≠ 0 := by
  obtain ⟨n, pos, -, rfl⟩ := h
  omega

/-- **A function** that was compiled keeps to its frame. -/
theorem Function.framed {constants : List String} {arities : List (String × Nat)} {σ σ' : Supply} {code : List Line}
    (done : f.compile constants arities σ = .ok (code, σ'))
    (named : ∀ body, f.body = some body → ∀ name ∈ body.targets, name ∈ f.names) :
    ∃ s frame body inner, f.body = some body ∧ s.names = f.names ∧ Framed s f frame body inner code := by
  obtain ⟨body, inner, found, compiled, eq⟩ := Function.compile_eq_ok done
  obtain ⟨before, after, parts, read, written, saved⟩ := exists_prologue f (4 * (1 + f.names.length + σ'.peak))
  have keeps := (saved rfl).append (body.keeps (named body found) compiled)
  have reads : reads code = reads (after ++ inner) ++ [0] := by
    rw [eq, parts]
    simp only [reads_append, read, reads_epilogue.1, List.nil_append, List.append_assoc]
  have writes : writes code = 0 :: writes (after ++ inner) := by
    rw [eq, parts]
    simp only [writes_append, written, reads_epilogue.2, List.append_nil, List.append_assoc]
    rfl
  refine ⟨⟨constants, arities, f.names, numbered σ.labels⟩, _, body, inner, found, rfl, eq, fun distance among => ?_, ⟨_, writes, fun zero => ?_⟩,
    fun name mem other _ => distanceOf_inj mem, fun b inside => ?_, fun b inside o mem e inside' => ?_⟩
  · have slot : distance = 0 ∨ Scope.IsSlot ⟨constants, arities, f.names, numbered σ.labels⟩ σ'.peak distance := by
      rw [reads, writes, List.mem_append, List.mem_singleton, List.mem_cons] at among
      obtain (mem | eq) | eq | mem := among
      · exact .inr (keeps.reads distance mem)
      · exact .inl eq
      · exact .inl eq
      · exact .inr (keeps.writes distance mem)
    obtain rfl | ⟨n, pos, small, rfl⟩ := slot
    · omega
    · change n ≤ f.names.length + σ'.peak at small
      omega
  · exact (keeps.writes 0 zero).ne_zero rfl
  · obtain ⟨σ₁, own, σ₂, there, among⟩ := inside.exists_code compiled
    exact ⟨σ₁, own, σ₂, there, among, Statement.settled there⟩
  · obtain ⟨σ₁, own, σ₂, there, among⟩ := inside.exists_code compiled
    obtain ⟨σ₃, own', value, σ₄, there', among'⟩ := Statement.exists_code_of_mem_operands there mem
    obtain ⟨τ, part, value', τ', here, among''⟩ := inside'.exists_code there'
    exact ⟨τ, part, value', τ', here, among''.trans (among'.trans among), Expression.settled here⟩

end

/-- **Whether a function keeps to its frame** in a listing: what it reads and writes next to the stack
pointer is in the frame, only the return address is kept where it is, no two names have the same slot, and
no value is written over before it is used. -/
def KeepsFrame (l : Listing) (f : Function) : Prop :=
  ∃ before code after s frame body inner, l.lines = before ++ code ++ after ∧ f.body = some body
    ∧ s.names = f.names ∧ Framed s f frame body inner code

/-- **Every function of a program that was compiled** keeps to its frame. -/
theorem compile_keepsFrame {t : Tree} {l : Listing} (compiled : compile t = .ok l) :
    ∀ f ∈ (Program.ofTree t).functions, KeepsFrame l f := by
  intro f mem
  obtain ⟨arities, code, σ', -, -, -, all, lines⟩ := Program.compile_eq_ok compiled
  obtain ⟨before, own, after, σ₁, σ₂, done, rfl⟩ := compileFunctions_mem all mem
  have named : ∀ body, f.body = some body → ∀ name ∈ body.targets, name ∈ f.names := by
    obtain ⟨u, -, rfl⟩ := List.mem_map.1 mem
    exact fun body found => Function.targets_ofTree found
  obtain ⟨s, frame, body, inner, found, same, framed⟩ := Function.framed done named
  refine ⟨startLines (numbered 0) ++ before, own, after ++ [line "exitv" [.int 0]], s, frame, body, inner, ?_, found,
    same, framed⟩
  rw [lines]
  simp only [List.append_assoc]

/-- A source with temporaries at all depths of its statements. -/
def nesting : String :=
  "fn main() \x7b s = 0; while (s < 9) \x7b if (s > 3) s = s + f(s, s * 2) - 1; else [s + 100] = s * s + 1; s = s + 1; \x7d return s; \x7d fn f(a, b) return a * b + (a - b);"

theorem compile_keepsFrame_nesting : ∃ raw l, language.parse nesting = .ok raw
    ∧ compile (language.shake raw) = .ok l
    ∧ (Program.ofTree (language.shake raw)).functions.length = 2
    ∧ ∀ f ∈ (Program.ofTree (language.shake raw)).functions, KeepsFrame l f := by
  have checked : ((lexicon.tokenize nesting.toList).toOption.bind (readGrammar.parseAlong 80)).any
      fun raw => (compile (language.shake raw)).toOption.isSome
        && (Program.ofTree (language.shake raw)).functions.length == 2 := by
    decide +kernel
  obtain ⟨raw, found, checked⟩ := (Option.any_eq_true ..).1 checked
  obtain ⟨ts, cut, found⟩ := Option.bind_eq_some_iff.1 found
  simp only [Bool.and_eq_true, Option.isSome_iff_exists, beq_iff_eq] at checked
  obtain ⟨⟨l, compiled⟩, two⟩ := checked
  replace compiled := Except.toOption_eq_some.1 compiled
  have parsed : language.parse nesting = .ok raw := parse_eq_ok.2
    ⟨ts, Except.toOption_eq_some.1 cut, Grammar.parseTokens_of_parseAlong found⟩
  exact ⟨raw, l, parsed, compiled, two, compile_keepsFrame compiled⟩

end Polyglot.B
