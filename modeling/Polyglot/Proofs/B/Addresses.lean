import Mathlib
import Polyglot.Proofs.Assembly.Stretches
import Polyglot.Proofs.B.Frames
import Polyglot.Proofs.B.Peeling

/-!
# Offsets of addresses

A word at an offset from a base is loaded by one instruction that takes the offset. The same word can be had by
adding the offset to the base first and loading the word there. Then the sum is kept in a temporary, unless
it is known, and this is all that makes a difference: the temporary is a word of the memory, too, and whoever
has its address reads the sum there instead of what there was before (`sum_seen`).

Away from that word, both ways lead to the same address, and to the same value or the same fault, whatever is in the
memory and wherever the base points (`PeelsAlike`).
-/

namespace Polyglot.Machine

/-- A word is read from its four bytes. -/
theorem Memory.readWord_congr {m m' : Memory} {address : Int} (size : m'.size = m.size)
    (same : ∀ b : Nat, address ≤ b → (b : Int) < address + 4 → m'.byte b = m.byte b) :
    m'.readWord address = m.readWord address := by
  have range : m'.range address 4 = m.range address 4 := by rw [Memory.range, Memory.range, size]
  rw [Memory.readWord, Memory.readWord, range]
  cases within : m.range address 4 with
  | error fault => simp only [bind, Except.bind]
  | ok start =>
    have low : (start : Int) = address := by
      unfold Memory.range at within
      split at within
      · cases within
      · have := Except.ok.inj within
        omega
    have bytes (i : Nat) (less : i < 4) : m'.byte (start + i) = m.byte (start + i) := same _ (by omega) (by omega)
    have first : m'.byte start = m.byte start := bytes 0 (by decide)
    simp only [bind, Except.bind, first, bytes 1 (by decide), bytes 2 (by decide), bytes 3 (by decide)]

end Polyglot.Machine

namespace Polyglot.B

open Polyglot.Source
open Polyglot.Assembly (Line Listing Command Operand)
open Polyglot.Machine (Register Setup View State Memory fits)

/-! ## Values -/

/-- Whether a value is a word, in the frame at an address. -/
def Value.Stands (l : Listing) (base : Nat) (v : View) (a : Int32) : Value → Prop
  | .slot n => v.Word (base + 4 * n) a
  | .int value => value = a
  | .constant index => ∃ start, Assembly.constantStart? l.constants index = some start
    ∧ a = Int32.ofInt (Machine.loadAddress + start : Nat)

/-- Whether a view shows the frame of a function at an address, with so many temporaries. -/
structure Standing (s : Scope) (temporaries base : Nat) (v : View) : Prop where
  /-- The stack pointer is there. -/
  sp : (v.get .sp).toInt = base
  /-- The frame ends in the memory. -/
  high : base + 4 * (1 + s.names.length + temporaries) ≤ v.memory.size

/-- Whether a machine loads the word at an address of a memory, so that it is a value before a line, or stops with the
fault if there is no such word. -/
def Fetches (x : Setup) (l : Listing) (base : Nat) (value : Value) (m : State) (i : Nat) (memory : Memory)
    (address : Int) : Prop :=
  (∀ word, memory.readWord address = .ok word →
      ∃ v, x.Comes m (l.before i) v ∧ value.Stands l base v word.toInt32)
    ∧ ∀ fault, memory.readWord address = .error fault → m.Stops fault

/-- Whether a machine stores a word at an address of a memory before a line, or stops with the fault if it cannot. -/
def Puts (x : Setup) (l : Listing) (m : State) (i : Nat) (memory : Memory) (address : Int) (word : UInt32) : Prop :=
  (∀ memory', memory.writeWord address word = .ok memory' → x.Gets m (l.before i) memory')
    ∧ ∀ fault, memory.writeWord address word = .error fault → m.Stops fault

section

variable {x : Setup} {l : Listing} {s : Scope} {base temporaries i j n : Nat} {v v' : View} {a c : Int32} {value : Value}
  {r : Register} {memory : Memory} {address : Int} {m : State}

/-- What is loaded depends on the word only. -/
theorem Fetches.congr {memory' : Memory} {address' : Int} (h : Fetches x l base value m i memory address)
    (same : memory.readWord address = memory'.readWord address') : Fetches x l base value m i memory' address' :=
  ⟨fun word read => h.1 word (same.trans read), fun fault outside => h.2 fault (same.trans outside)⟩

/-- A value is where it was after a register is written. -/
theorem Value.Stands.set (h : value.Stands l base v a) : value.Stands l base (v.set r c) a := by
  cases value with
  | slot n => exact View.word_set.2 h
  | int | constant => exact h

/-- A value is put into a register. -/
theorem Value.runs_load (assembled : l.assemble = .ok x.program) (sp : (v.get .sp).toInt = base)
    (there : l.lines[i]? = some (value.load r)) (ne : r ≠ .pc) (ne' : r ≠ .sp) (stands : value.Stands l base v a) :
    x.Runs (l.before i) v (l.before (i + 1)) (v.set r a) := by
  cases value with
  | slot n =>
    have orders : l.Orders i (.load r .sp (4 * n)) := ⟨_, _, _, there, rfl⟩
    have address : (v.get .sp).toInt + 4 * (n : Int) = (base + 4 * n : Nat) := by
      rw [sp]
      omega
    have read : v.memory.readWord ((v.get .sp).toInt + 4 * (n : Int)) = .ok a.toUInt32 := by
      rw [address]
      exact Memory.Holds.readWord stands
    have runs := Listing.runs_load assembled orders ne ne' (by decide) read
    rwa [Int32.toInt32_toUInt32] at runs
  | int value =>
    have orders : l.Orders i (.put r (.int value.toInt)) := ⟨_, _, _, there, rfl⟩
    obtain rfl : value = a := stands
    have runs := Listing.runs_put_int (v := v) assembled orders ne ne'
    rwa [Int32.ofInt_toInt] at runs
  | constant index =>
    have orders : l.Orders i (.put r (.constant index)) := ⟨_, _, _, there, rfl⟩
    obtain ⟨start, found, rfl⟩ := stands
    obtain ⟨start', found', runs⟩ := Listing.runs_put_constant (v := v) assembled orders ne ne'
    obtain rfl := Option.some.inj (found.symm.trans found')
    exact runs

/-- A register is put into a slot. -/
theorem runs_saveTo (assembled : l.assemble = .ok x.program) (standing : Standing s temporaries base v)
    (there : l.lines[i]? = some (saveTo n r)) (ne : r ≠ .pc) (le : n ≤ s.names.length + temporaries) :
    x.Runs (l.before i) v (l.before (i + 1)) (v.store (base + 4 * n) (v.get r)) := by
  have orders : l.Orders i (.store r .sp (4 * n)) := ⟨_, _, _, there, rfl⟩
  have sp := standing.sp
  have high := standing.high
  refine .of_sound fun sound => Listing.runs_store assembled orders ne (by decide) ?_ ?_ ?_
  · omega
  · have limit := sound.limit
    omega
  · have size := sound.size
    omega

theorem standing_set (h : Standing s temporaries base v) (ne : r ≠ .sp) : Standing s temporaries base (v.set r a) where
  sp := by
    rw [View.get_set_of_ne ne.symm]
    exact h.sp
  high := h.high

/-- A word at an offset from a value is loaded to a slot, or there is none. -/
theorem fetches_load {k : Int} (assembled : l.assemble = .ok x.program) (standing : Standing s temporaries base v)
    (contains : l.Contains i [value.load .t1, line "load" [Register.t0, Register.t1, .int k], saveTo n .t0])
    (le : n ≤ s.names.length + temporaries) (stands : value.Stands l base v a) (comes : x.Comes m (l.before i) v) :
    Fetches x l base (.slot n) m (i + 3) v.memory (a.toInt + k) := by
  simp only [Listing.contains_cons] at contains
  obtain ⟨first, second, third, -⟩ := contains
  have loaded := Value.runs_load (r := .t1) assembled standing.sp first (by decide) (by decide) stands
  have orders : l.Orders (i + 1) (.load .t0 .t1 k) := ⟨_, _, _, second, rfl⟩
  have address : ((v.set .t1 a).get .t1).toInt + k = a.toInt + k := by rw [View.get_set_self (by decide)]
  refine ⟨fun word read => ?_, fun fault outside => ?_⟩
  · rw [← address] at read
    have fetched := Listing.runs_load (v := v.set .t1 a) assembled orders (by decide) (by decide) (by decide) read
    have standing' : Standing s temporaries base ((v.set .t1 a).set .t0 word.toInt32) :=
      standing_set (standing_set standing (by decide)) (by decide)
    have saved := runs_saveTo assembled standing' third (by decide) le
    rw [View.get_set_self (by decide)] at saved
    have high := standing.high
    refine ⟨_, ((comes.runs loaded).runs fetched).runs saved, View.word_store ?_⟩
    rw [View.memory_set, View.memory_set]
    omega
  · rw [← address] at outside
    exact (comes.runs loaded).breaks (Listing.breaks_load assembled orders (by decide) outside)

/-- A value is stored at an offset from another, or there is no word there. -/
theorem puts_store {k : Int} {address : Value} (assembled : l.assemble = .ok x.program) (sp : (v.get .sp).toInt = base)
    (contains : l.Contains i [address.load .t0, value.load .t1, line "store" [Register.t1, Register.t0, .int k]])
    (stands : address.Stands l base v a) (stands' : value.Stands l base v c) (comes : x.Comes m (l.before i) v) :
    Puts x l m (i + 3) v.memory (a.toInt + k) c.toUInt32 := by
  simp only [Listing.contains_cons] at contains
  obtain ⟨first, second, third, -⟩ := contains
  have loaded := Value.runs_load (r := .t0) assembled sp first (by decide) (by decide) stands
  have sp' : ((v.set .t0 a).get .sp).toInt = base := by rwa [View.get_set_of_ne (by decide)]
  have loaded' := Value.runs_load (r := .t1) assembled sp' second (by decide) (by decide) (stands'.set (r := .t0) (c := a))
  have orders : l.Orders (i + 1 + 1) (.store .t1 .t0 k) := ⟨_, _, _, third, rfl⟩
  have there : (((v.set .t0 a).set .t1 c).get .t0).toInt + k = a.toInt + k := by
    rw [View.get_set_of_ne (by decide), View.get_set_self (by decide)]
  have what : (((v.set .t0 a).set .t1 c).get .t1).toUInt32 = c.toUInt32 := by rw [View.get_set_self (by decide)]
  refine ⟨fun memory written => ?_, fun fault outside => ?_⟩
  · rw [← there, ← what] at written
    exact ((comes.runs loaded).runs loaded').leaves
      (Listing.leaves_store (v := (v.set .t0 a).set .t1 c) assembled orders (by decide) (by decide) written)
  · rw [← there, ← what] at outside
    exact ((comes.runs loaded).runs loaded').breaks
      (Listing.breaks_store (v := (v.set .t0 a).set .t1 c) assembled orders (by decide) outside)

/-- Whether an address is a 32-bit number. -/
def InRange (address : Int) : Prop := -0x80000000 ≤ address ∧ address < 0x80000000

/-- Adding an offset to an address is adding numbers as long as the sum is in range. -/
theorem Operator.Shifts.compute? {op : Operator} {m k : Int} (h : op.Shifts m k) (inRange : InRange (a.toInt + k)) :
    ∃ c, op.compute? a (Int32.ofInt m) = some c ∧ c.toInt = a.toInt + k := by
  obtain ⟨rfl, rfl⟩ | ⟨rfl, rfl⟩ := h
  · exact ⟨_, rfl, Machine.toInt_add_ofInt inRange.1 inRange.2⟩
  · refine ⟨_, rfl, ?_⟩
    rw [Int32.sub_eq_add_neg, ← Int32.ofInt_neg]
    exact Machine.toInt_add_ofInt inRange.1 inRange.2

/-- The lines of a sum leave it in a slot. -/
theorem runs_sum {op : Operator} {m k : Int} (h : op.Shifts m k) (assembled : l.assemble = .ok x.program)
    (standing : Standing s temporaries base v) (le : n ≤ s.names.length + temporaries)
    (contains : l.Contains i (op.lines value (.int (Int32.ofInt m)) ++ [saveTo n .t0]))
    (stands : value.Stands l base v a) (computed : op.compute? a (Int32.ofInt m) = some c) :
    x.Runs (l.before i) v (l.before (i + 3)) (((v.set .t1 a).set .t0 c).store (base + 4 * n) c) := by
  simp only [Operator.lines, List.cons_append, List.nil_append, Listing.contains_cons] at contains
  obtain ⟨first, second, third, -⟩ := contains
  have loaded := Value.runs_load (r := .t1) assembled standing.sp first (by decide) (by decide) stands
  have orders : l.Orders (i + 1) (.computeWith op.operation .t0 .t1 (Int32.ofInt m).toInt) :=
    ⟨_, _, _, second, op.ofLine_mnemonic_with ..⟩
  have added : x.Runs (l.before (i + 1)) (v.set .t1 a) (l.before (i + 1 + 1)) ((v.set .t1 a).set .t0 c) := by
    obtain ⟨rfl, -⟩ | ⟨rfl, -⟩ := h
    · refine Listing.runs_computeWith assembled orders (by decide) (by decide) (by decide) ?_
      rw [View.get_set_self (by decide), Int32.ofInt_toInt]
      exact computed
    · refine Listing.runs_computeWith assembled orders (by decide) (by decide) (by decide) ?_
      rw [View.get_set_self (by decide), Int32.ofInt_toInt]
      exact computed
  have standing' : Standing s temporaries base ((v.set .t1 a).set .t0 c) :=
    standing_set (standing_set standing (by decide)) (by decide)
  have saved := runs_saveTo assembled standing' third (by decide) le
  rw [View.get_set_self (by decide)] at saved
  exact (loaded.trans added).trans saved

end

/-! ## Sums -/

/-- Whether lines have made a value of a base that is so much more, and have written to nothing but the slot of that
value, if it has one. -/
structure Shifted (x : Setup) (l : Listing) (base i : Nat) (middle : List Line) (k : Int) (v : View) (a : Int32)
    (sum : Value) (v' : View) (c : Int32) : Prop where
  /-- The machine goes through the lines. -/
  runs : x.Runs (l.before i) v (l.before (i + middle.length)) v'
  /-- The value is there. -/
  stands : sum.Stands l base v' c
  /-- It is the sum. -/
  toInt : c.toInt = a.toInt + k
  /-- The stack pointer is the same. -/
  sp : v'.get .sp = v.get .sp
  /-- The memory has the same size. -/
  size : v'.memory.size = v.memory.size
  /-- The bytes that are not in the slot are the same. -/
  byte : ∀ b : Nat, (∀ n, sum = .slot n → b < base + 4 * n ∨ base + 4 * n + 4 ≤ b) →
    v'.memory.byte b = v.memory.byte b

section

variable {x : Setup} {l : Listing} {s : Scope} {σ σ₁ σ' : Supply} {base temporaries i n : Nat} {v v' : View} {a c : Int32}
  {value sum : Value} {code own middle : List Line} {e whole : Expression} {k : Int}

theorem Shifted.standing (h : Shifted x l base i middle k v a sum v' c) (standing : Standing s temporaries base v) :
    Standing s temporaries base v' where
  sp := h.sp ▸ standing.sp
  high := h.size ▸ standing.high

/-- The word at an address is the same if it is not where the sum is kept. -/
theorem Shifted.readWord (h : Shifted x l base i middle k v a sum v' c) {address : Int}
    (apart : ∀ n : Nat, sum = .slot n → address + 4 ≤ (base + 4 * n : Nat) ∨ (base + 4 * n + 4 : Nat) ≤ address) :
    v'.memory.readWord address = v.memory.readWord address := by
  refine Memory.readWord_congr h.size fun b low high => h.byte b fun n is => ?_
  have := apart n is
  omega

/-- **The whole** is compiled to the code of the base and lines that add the offset to it. -/
theorem Peels.exists_shifted (h : Peels e k whole) (first : e.compile s σ = .ok ((code, value), σ₁))
    (done : whole.compile s σ = .ok ((own, sum), σ')) :
    ∃ middle, own = code ++ middle ∧ ∀ {x : Setup} {l : Listing} {base temporaries i : Nat} {v : View} {a : Int32},
      l.assemble = .ok x.program → l.Contains i middle → Standing s temporaries base v →
      σ'.temporaries ≤ temporaries → value.Stands l base v a → InRange (a.toInt + k) →
      ∃ v' c, Shifted x l base i middle k v a sum v' c := by
  obtain ⟨-, op, m, code, value, σ₁, shifts, -, compiled, made⟩ := h.compile done
  obtain ⟨same, rfl⟩ := Prod.mk.inj (Except.ok.inj (compiled.symm.trans first))
  obtain ⟨rfl, rfl⟩ := Prod.mk.inj same
  obtain ⟨known, folded, eq, rfl⟩ | kept := made
  · obtain ⟨rfl, rfl⟩ := Prod.mk.inj eq
    refine ⟨[], (List.append_nil _).symm, fun {x l base temporaries i v a} _ _ _ _ stands inRange => ?_⟩
    obtain ⟨a', m', c, rfl, second, rfl, computed⟩ := op.operands_of_fold? folded
    obtain rfl := Value.int.inj second
    obtain rfl : a' = a := stands
    obtain ⟨c', computed', toInt⟩ := shifts.compute? inRange
    obtain rfl := Option.some.inj (computed.symm.trans computed')
    exact ⟨v, c, .refl, rfl, toInt, rfl, rfl, fun _ _ => rfl⟩
  · obtain ⟨rfl, rfl, rfl⟩ := eq_of_keep kept
    refine ⟨op.lines value (.int (Int32.ofInt m)) ++ [saveTo (s.names.length + (σ₁.temporaries + 1)) .t0],
      by rw [List.append_assoc], fun {x l base temporaries i v a} assembled contains standing few stands inRange => ?_⟩
    obtain ⟨c, computed, toInt⟩ := shifts.compute? inRange
    have le : s.names.length + (σ₁.temporaries + 1) ≤ s.names.length + temporaries := Nat.add_le_add_left few _
    have high := standing.high
    refine ⟨_, c, runs_sum shifts assembled standing le contains stands computed, View.word_store ?_, toInt, ?_, ?_,
      fun b outside => ?_⟩
    · rw [View.memory_set, View.memory_set]
      omega
    · rw [View.get_store, View.get_set_of_ne (by decide), View.get_set_of_ne (by decide)]
    · rw [View.size_store]
      rfl
    · have apart := outside _ rfl
      exact (View.keeps_store (v := (v.set .t1 a).set .t0 c) (Nat.le_refl _) (Nat.le_refl _)).byte b (Nat.zero_le _) apart

end

/-! ## Accesses -/

/-- The slots that a value is in. -/
def Value.slots : Value → List Nat
  | .slot n => [n]
  | _ => []

/-- Whether a word at an address is apart from one at another. -/
def Away (address place : Int) : Prop := address + 4 ≤ place ∨ place + 4 ≤ address

/-- Whether a machine comes to the end of the code of a base, which stands in a listing from a line on, and the base
is evaluated to a number. -/
structure Evaluates (x : Setup) (l : Listing) (s : Scope) (temporaries frame i : Nat) (code : List Line) (value : Value)
    (m : State) (v : View) (a : Int32) : Prop where
  /-- The listing is that of the program. -/
  assembled : l.assemble = .ok x.program
  /-- The machine comes to the end of the code. -/
  comes : x.Comes m (l.before (i + code.length)) v
  /-- It does so in the frame of a function. -/
  standing : Standing s temporaries frame v
  /-- The number is where the value is. -/
  stands : value.Stands l frame v a

/-- Whether the frame is the same in two views, as far as it is in use. -/
structure Undisturbed (s : Scope) (temporaries frame : Nat) (v v' : View) : Prop where
  /-- The stack pointer. -/
  sp : v'.get .sp = v.get .sp
  /-- The size of the memory. -/
  size : v'.memory.size = v.memory.size
  /-- The bytes. -/
  byte : ∀ b, frame ≤ b → b < frame + 4 * (1 + s.names.length + temporaries) → v'.memory.byte b = v.memory.byte b

/-- Whether an expression loads the word at an offset from a base: in any program in which its code stands, by any
machine that evaluates the base, unless the word is in one of some slots. -/
def Loads (s : Scope) (σ : Supply) (base : Expression) (k : Int) (e : Expression) (slots : List Nat) : Prop :=
  ∀ own place σ', e.compile s σ = .ok ((own, place), σ') →
    ∃ code value σ₁ rest, base.compile s σ = .ok ((code, value), σ₁) ∧ own = code ++ rest
      ∧ ∀ x l temporaries frame i m v a, l.Contains i own → σ'.temporaries ≤ temporaries →
        Evaluates x l s temporaries frame i code value m v a → InRange (a.toInt + k) →
        (∀ n ∈ slots, Away (a.toInt + k) (frame + 4 * n : Nat)) →
        Fetches x l frame place m (i + own.length) v.memory (a.toInt + k)

/-- Whether a statement stores what an expression is evaluated to at an offset from a base: in any program in which its
code stands, by any machine that evaluates the base, and then the expression without writing to what is in use of
the frame. -/
def Stores (s : Scope) (σ : Supply) (base : Expression) (k : Int) (e : Expression) (b : Statement) : Prop :=
  ∀ own σ', b.compile s σ = .ok (own, σ') →
    ∃ code value σ₁ middle σ₂ rest operand ending, base.compile s σ.released = .ok ((code, value), σ₁)
      ∧ e.compile s σ₂ = .ok ((rest, operand), σ') ∧ own = code ++ middle ++ rest ++ ending
      ∧ ∀ x l temporaries frame i m v a, l.Contains i own → σ'.temporaries ≤ temporaries →
        Evaluates x l s temporaries frame i code value m v a → InRange (a.toInt + k) →
        ∃ v₁, x.Comes m (l.before (i + (code ++ middle).length)) v₁
          ∧ ∀ v₂ c, x.Comes m (l.before (i + (code ++ middle ++ rest).length)) v₂ →
            Undisturbed s σ₂.temporaries frame v₁ v₂ → operand.Stands l frame v₂ c →
            Puts x l m (i + own.length) v₂.memory (a.toInt + k) c.toUInt32

section

variable {s : Scope} {σ : Supply} {base whole e : Expression} {k : Int} {span : Span} {l : Listing} {v v' : View}
  {a : Int32} {value : Value} {frame temporaries : Nat}

/-- A word is at the offset. -/
theorem loads_offset : Loads s σ base k (.load base k span) [] := by
  intro own place σ' done
  obtain ⟨-, code, value, σ₁, compiled, kept⟩ := Expression.compile_load done
  obtain ⟨rfl, rfl, rfl⟩ := eq_of_keep kept
  refine ⟨code, value, σ₁, _, compiled, List.append_assoc .., fun x l temporaries frame i m v a contains few evaluated _ _ => ?_⟩
  rw [List.append_assoc, Listing.contains_append] at contains
  rw [List.append_assoc, List.length_append, ← Nat.add_assoc]
  have le : s.names.length + (σ₁.temporaries + 1) ≤ s.names.length + temporaries := Nat.add_le_add_left few _
  exact fetches_load evaluated.assembled evaluated.standing contains.2 le evaluated.stands evaluated.comes

/-- A word is where the sum is, unless the sum is kept there. -/
theorem Peels.loads (h : Peels base k whole) {code : List Line} {sum : Value} {τ : Supply}
    (compiled : whole.compile s σ = .ok ((code, sum), τ)) : Loads s σ base k (.load whole 0 span) sum.slots := by
  intro own place σ' done
  obtain ⟨-, code', sum', σ₂, compiled', kept⟩ := Expression.compile_load done
  obtain ⟨same, rfl⟩ := Prod.mk.inj (Except.ok.inj (compiled.symm.trans compiled'))
  obtain ⟨rfl, rfl⟩ := Prod.mk.inj same
  obtain ⟨-, -, -, first, value, σ₁, -, -, compiledBase, -⟩ := h.compile compiled
  obtain ⟨middle, rfl, shifted⟩ := h.exists_shifted compiledBase compiled
  obtain ⟨rfl, rfl, rfl⟩ := eq_of_keep kept
  refine ⟨first, value, σ₁, _, compiledBase, by rw [List.append_assoc, List.append_assoc],
    fun x l temporaries frame i m v a contains few evaluated inRange apart => ?_⟩
  rw [List.append_assoc, Listing.contains_append, Listing.contains_append, List.length_append, ← Nat.add_assoc] at contains
  obtain ⟨⟨-, contains⟩, contains'⟩ := contains
  have le : τ.temporaries + 1 ≤ temporaries := few
  obtain ⟨v', c, made⟩ := shifted evaluated.assembled contains evaluated.standing (by omega) evaluated.stands inRange
  have read : v'.memory.readWord (c.toInt + 0) = v.memory.readWord (a.toInt + k) := by
    rw [Int.add_zero, made.toInt]
    refine made.readWord fun n is => ?_
    subst is
    exact apart n (List.mem_singleton_self n)
  rw [List.append_assoc, List.length_append, List.length_append, ← Nat.add_assoc i, ← Nat.add_assoc i]
  exact (fetches_load (k := 0) evaluated.assembled (made.standing evaluated.standing) contains'
    (Nat.add_le_add_left le _) made.stands (evaluated.comes.runs made.runs)).congr read

/-- A value that some code has made is where it was, as long as the frame is the same. -/
theorem Made.stands {σ₁ : Supply} {code : List Line} (h : Made s σ₁ code value) (stands : value.Stands l frame v a)
    (same : Undisturbed s σ₁.temporaries frame v v') : value.Stands l frame v' a := by
  cases value with
  | slot n =>
    obtain ⟨-, -, le⟩ := h n rfl
    refine ⟨same.size ▸ stands.fits, fun i less => ?_⟩
    rw [← stands.byte_eq i less]
    have : (Machine.wordBytes a.toUInt32).length = 4 := rfl
    exact same.byte _ (by omega) (by omega)
  | int | constant => exact stands

theorem Undisturbed.standing {used : Nat} (same : Undisturbed s used frame v v') (h : Standing s temporaries frame v) :
    Standing s temporaries frame v' where
  sp := same.sp ▸ h.sp
  high := same.size ▸ h.high

/-- A value is stored at the offset. -/
theorem stores_offset : Stores s σ base k e (.store base k span e) := by
  intro own σ' done
  obtain ⟨-, code, value, σ₁, rest, operand, compiled, compiled', rfl⟩ := Statement.compile_store done
  refine ⟨code, value, σ₁, [], σ₁, rest, operand, _, compiled, compiled', by rw [List.append_nil code],
    fun x l temporaries frame i m v a contains few evaluated _ => ?_⟩
  rw [List.append_nil]
  refine ⟨v, evaluated.comes, fun v₂ c comes same stands => ?_⟩
  rw [Listing.contains_append] at contains
  have kept := (base.occupies compiled).2.stands evaluated.stands same
  rw [List.length_append, ← Nat.add_assoc]
  exact puts_store evaluated.assembled (same.standing evaluated.standing).sp contains.2 kept stands comes

/-- A value is stored where the sum is. -/
theorem Peels.stores (h : Peels base k whole) : Stores s σ base k e (.store whole 0 span e) := by
  intro own σ' done
  obtain ⟨-, own, sum, τ, rest, operand, compiled, compiled', rfl⟩ := Statement.compile_store done
  obtain ⟨-, -, -, first, value, σ₁, -, -, compiledBase, -⟩ := h.compile compiled
  obtain ⟨middle, rfl, shifted⟩ := h.exists_shifted compiledBase compiled
  refine ⟨first, value, σ₁, middle, τ, rest, operand, _, compiledBase, compiled', rfl,
    fun x l temporaries frame i m v a contains few evaluated inRange => ?_⟩
  rw [Listing.contains_append, Listing.contains_append, Listing.contains_append] at contains
  obtain ⟨⟨⟨-, contains⟩, -⟩, contains'⟩ := contains
  have le : τ.temporaries ≤ σ'.temporaries := (e.within compiled').temporaries
  obtain ⟨v₁, b, made⟩ := shifted evaluated.assembled contains evaluated.standing (by omega) evaluated.stands inRange
  refine ⟨v₁, ?_, fun v₂ c comes same stands => ?_⟩
  · rw [List.length_append, ← Nat.add_assoc]
    exact evaluated.comes.runs made.runs
  · have kept := (whole.occupies compiled).2.stands made.stands same
    have puts := puts_store (k := 0) evaluated.assembled
      (same.standing (made.standing evaluated.standing)).sp contains' kept stands comes
    rw [Int.add_zero, made.toInt] at puts
    rwa [List.length_append, ← Nat.add_assoc]

/-- Whether an address may be split into a base and an offset: an access at the offset is refused only if one at
the whole is, and both are accesses to the word that is so far from the base. -/
structure PeelsAlike (s : Scope) (σ : Supply) (base : Expression) (k : Int) (whole : Expression) : Prop where
  /-- What is loaded at the offset is refused only if it is refused at the whole. -/
  load_refused : ∀ span span' error, (Expression.load base k span).compile s σ = .error error →
    ∃ error', (Expression.load whole 0 span').compile s σ = .error error'
  /-- What is stored at the offset is refused only if it is refused at the whole. -/
  store_refused : ∀ span span' e error, (Statement.store base k span e).compile s σ = .error error →
    ∃ error', (Statement.store whole 0 span' e).compile s σ = .error error'
  /-- A word is loaded at the offset. -/
  loads : ∀ span, Loads s σ base k (.load base k span) []
  /-- The same word is loaded at the whole, unless it is where the whole is kept. -/
  loads_whole : ∀ span code sum τ, whole.compile s σ = .ok ((code, sum), τ) →
    Loads s σ base k (.load whole 0 span) sum.slots
  /-- A value is stored at the offset. -/
  stores : ∀ span e, Stores s σ base k e (.store base k span e)
  /-- It is stored to the same word at the whole. -/
  stores_whole : ∀ span e, Stores s σ base k e (.store whole 0 span e)

theorem Peels.alike (h : Peels base k whole) : PeelsAlike s σ base k whole where
  load_refused span span' error refused := by
    cases done : (Expression.load whole 0 span').compile s σ with
    | error error' => exact ⟨error', rfl⟩
    | ok r =>
      obtain ⟨result, σ'⟩ := r
      obtain ⟨_, _, done'⟩ : ∃ result τ, (Expression.load base k span).compile s σ = .ok (result, τ) :=
        h.load_compiles done
      rw [refused] at done'
      cases done'
  store_refused span span' e error refused := by
    cases done : (Statement.store whole 0 span' e).compile s σ with
    | error error' => exact ⟨error', rfl⟩
    | ok r =>
      obtain ⟨code, σ'⟩ := r
      obtain ⟨_, _, done'⟩ : ∃ code τ, (Statement.store base k span e).compile s σ = .ok (code, τ) :=
        h.store_compiles done
      rw [refused] at done'
      cases done'
  loads _ := loads_offset
  loads_whole _ _ _ _ compiled := h.loads compiled
  stores _ _ := stores_offset
  stores_whole _ _ := h.stores

/-- Nothing is an access to what is refused. -/
theorem Expression.Refused.alike (h : whole.Refused) : PeelsAlike s σ base k whole where
  load_refused _ span' _ _ := by
    cases done : (Expression.load whole 0 span').compile s σ with
    | error error' => exact ⟨error', rfl⟩
    | ok r =>
      obtain ⟨-, _, _, _, compiled, -⟩ := Expression.compile_load done
      exact absurd compiled (h _ _ _)
  store_refused _ span' e _ _ := by
    cases done : (Statement.store whole 0 span' e).compile s σ with
    | error error' => exact ⟨error', rfl⟩
    | ok r =>
      obtain ⟨-, _, _, _, _, _, compiled, -⟩ := Statement.compile_store done
      exact absurd compiled (h _ _ _)
  loads _ := loads_offset
  loads_whole _ _ _ _ compiled := absurd compiled (h _ _ _)
  stores _ _ := stores_offset
  stores_whole _ _ _ _ done := by
    obtain ⟨-, _, _, _, _, _, compiled, -⟩ := Statement.compile_store done
    exact absurd compiled (h _ _ _)

end

/-! ## Sources -/

end Polyglot.B
