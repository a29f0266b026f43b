import Mathlib.Data.List.MinMax
import Mathlib.Data.List.Nodup
import Polyglot.Proofs.Assembly.Recovery
import Polyglot.Proofs.B.Temporaries

/-!
# What compiling gives

The listing of a program is well formed (`Program.wellFormed_compile`). Its labels are those
that were given out, which have numbers, and those of the functions, which have different
names as no two functions have the same. So none is defined twice, and a call goes to a
function that is there.

Such a listing is written in a way that it can be read again, provided the names of the
functions are words (`Program.written_compile`) and the frames have room for fewer slots
than there are addresses (`Program.fits_compile`).
-/

namespace Polyglot.Machine

/-- A text that starts as no name of a register does names none. -/
theorem Register.ofName?_eq_none {text : String} {c : Char} (first : text.toList.head? = some c)
    (other : c ∉ ['r', 'p', 's', 't', 'a']) : ofName? text = none := by
  have each : all.all fun r => [r.name, s!"r{r.index.val}"].all fun name =>
      name.toList.head?.all (['r', 'p', 's', 't', 'a'].contains ·) := by decide +kernel
  rw [ofName?, List.find?_eq_none]
  intro r mem named
  have starts := List.all_eq_true.1 (List.all_eq_true.1 each r mem) text (by
    rw [Bool.or_eq_true, beq_iff_eq, beq_iff_eq] at named
    exact List.mem_pair.2 (named.imp Eq.symm Eq.symm))
  rw [first, Option.all_some, List.contains_iff_mem] at starts
  exact other starts

end Polyglot.Machine

namespace Polyglot.B

open Polyglot.Assembly (Line Listing Operand IsName labelsOf)
open Polyglot.Machine (Register)

/-! ## Labels -/

theorem toList_numbered (n : Nat) : (numbered n).toList = 'L' :: n.repr.toList := by
  have text : numbered n = "L" ++ n.repr := by
    simp [numbered]
    rfl
  rw [text, String.toList_append]
  rfl

theorem toList_functionLabel (name : String) :
    (functionLabel name).toList = 'f' :: 'n' :: '_' :: name.toList := by
  simp [functionLabel]

theorem numbered_injective : Function.Injective numbered := by
  intro m n same
  have lists := congrArg String.toList same
  rw [toList_numbered, toList_numbered] at lists
  have values := congrArg Text.natural? (List.cons.inj lists).2
  rw [Lexicon.natural?_repr, Lexicon.natural?_repr] at values
  exact Option.some.inj values

theorem functionLabel_injective : Function.Injective functionLabel := fun _ _ same =>
  (String.append_right_inj _).1 same

theorem numbered_ne_functionLabel (n : Nat) (name : String) : numbered n ≠ functionLabel name := by
  intro same
  have lists := congrArg String.toList same
  rw [toList_numbered, toList_functionLabel] at lists
  cases lists

theorem isName_numbered (n : Nat) : IsName (numbered n) := by
  obtain ⟨c, rest, list, isDigit, isDigits⟩ := Lexicon.digits_repr n
  refine Assembly.isName_of_initial (toList_numbered n) (by decide) (by decide) fun d mem => ?_
  rw [list] at mem
  rcases List.mem_cons.1 mem with rfl | mem
  · exact Lexicon.wordParts_of_digits isDigit
  · exact Lexicon.wordParts_of_digits (isDigits d mem)

/-- The label of a function is a name if what the function is called is made of the
characters of words. -/
theorem isName_functionLabel {name : String} (parts : ∀ c ∈ name.toList, Lexicon.wordParts.contains c) :
    IsName (functionLabel name) := by
  refine Assembly.isName_of_initial (toList_functionLabel name) (by decide) (by decide) ?_
  exact List.forall_mem_cons.2 ⟨by decide, List.forall_mem_cons.2 ⟨by decide, parts⟩⟩

theorem ofName?_numbered (n : Nat) : Register.ofName? (numbered n) = none :=
  Register.ofName?_eq_none (by rw [toList_numbered]; rfl) (by decide)

theorem ofName?_functionLabel (name : String) : Register.ofName? (functionLabel name) = none :=
  Register.ofName?_eq_none (by rw [toList_functionLabel]; rfl) (by decide)

/-! ## Functions -/

/-- The expressions of a function. -/
def Function.expressions (f : Function) : List Expression :=
  (f.body.map Statement.expressions).getD []

/-- How many slots the frame of a function has at most, besides that of the return address: one
for each name, and twice the temporaries of the most demanding expression. -/
def Function.room (f : Function) : Nat :=
  f.names.length + 2 * (f.expressions.map Expression.demand).foldr max 0

theorem Function.expressions_of_body {f : Function} {body : Statement} (found : f.body = some body) :
    f.expressions = body.expressions := by
  rw [expressions, found]
  rfl

section

variable {constants : List String} {arities : List (String × Nat)} {σ σ' : Supply} {f : Function}
  {code : List Line}

theorem Function.slots_le_room (done : f.compile constants arities σ = .ok (code, σ')) :
    f.names.length + σ'.peak ≤ f.room := by
  obtain ⟨body, inner, found, compiled, -⟩ := compile_eq_ok done
  have small : ∀ e ∈ body.expressions,
      e.demand ≤ (body.expressions.map Expression.demand).foldr max 0 := fun e mem =>
    List.le_max_of_le' 0 (List.mem_map_of_mem mem) (Nat.le_refl _)
  have peak := body.peak_le_demand small compiled
  rw [room, expressions_of_body found]
  exact Nat.add_le_add_left (Nat.le_trans peak (Nat.max_le.2 ⟨Nat.zero_le _, Nat.le_refl _⟩)) _

/-- Instructions before a stretch. -/
theorem Emits.prepend {s : Scope} {before : List Line} (h : Emits s σ code σ')
    (lines : ∀ line ∈ before, s.AllowsLine σ' line) : Emits s σ (before ++ code) σ' := by
  induction before with
  | nil => exact h
  | cons x before ih =>
    obtain ⟨first, others⟩ := List.forall_mem_cons.1 lines
    have inner : Emits s σ ([] ++ (before ++ code)) σ' := ih others
    exact inner.insert first

/-- **The code of a function** is its label, and then code that refers to what is there, if the
texts in it are. -/
theorem Function.emits (texts : ∀ e ∈ f.expressions, ∀ text ∈ e.texts, text ∈ constants)
    (done : f.compile constants arities σ = .ok (code, σ')) :
    σ.labels < σ'.labels ∧ ∃ rest, code = place (functionLabel f.name) :: rest
      ∧ Emits ⟨constants, arities, f.names, numbered σ.labels⟩
          { σ with temporaries := 0, peak := 0 } rest σ' := by
  obtain ⟨body, inner, found, compiled, rfl⟩ := compile_eq_ok done
  rw [expressions_of_body found] at texts
  have emits := body.emits texts compiled
  generalize within : (⟨constants, arities, f.names, numbered σ.labels⟩ : Scope) = s at emits ⊢
  have named : s.names = f.names := by rw [← within]
  -- the stack pointer moves by the size of the frame, which the peak of the body decides
  have move {distance : Int} (small : distance.natAbs = 4 * (1 + f.names.length + σ'.peak)) :
      s.AllowsLine σ' (line "addv" [Register.sp, Register.sp, .int distance]) := by
    have word : s.Allows σ' (.int distance) := by
      unfold Scope.Allows
      rw [named]
      omega
    exact ⟨.inr (.inr ⟨by decide, rfl⟩), rfl, by simpa [Scope.Allows] using word⟩
  have slot (name : String) : slotOf f.names name ≤ s.names.length + σ'.peak + 1 := by
    have le : f.names.idxOf name ≤ f.names.length := List.idxOf_le_length
    rw [named, slotOf]
    omega
  have saves : ∀ line ∈ List.zipWith (fun r name => saveTo (slotOf f.names name) r)
      Register.arguments f.parameters, s.AllowsLine σ' line := by
    intro line mem
    obtain ⟨i, small, rfl⟩ := List.mem_iff_getElem.1 mem
    rw [List.getElem_zipWith]
    exact Scope.allowsLine_saveTo (slot _) _
  have known : s.AllowsValue σ' (.int 0) := trivial
  have first : s.AllowsValue σ' (.slot 0) := Nat.zero_le _
  have zero := Scope.allowsLine_load known .a0
  have back := Scope.allowsLine_load first .ra
  have jump : s.AllowsLine σ' (line "jump" [Register.ra]) :=
    ⟨.inl ⟨by decide, rfl⟩, rfl, by simp [Scope.Allows]⟩
  -- the label of the end was given out before the body, and comes behind it
  have labeled := (emits.instructions (List.forall_mem_singleton.2 zero)).label
    (σ := { σ with temporaries := 0, peak := 0 })
  have leaves : ∀ x ∈ [Value.load .ra (.slot 0),
      line "addv" [Register.sp, Register.sp, .int (4 * (1 + f.names.length + σ'.peak) : Nat)],
      line "jump" [Register.ra]], s.AllowsLine σ' x := by
    simpa using ⟨back, move rfl, jump⟩
  have enters : ∀ x ∈ line "addv" [Register.sp, Register.sp,
        .int (-(4 * (1 + f.names.length + σ'.peak) : Nat))] :: saveTo 0 .ra
      :: List.zipWith (fun r name => saveTo (slotOf f.names name) r) Register.arguments f.parameters,
      s.AllowsLine σ' x :=
    List.forall_mem_cons.2 ⟨move (by rw [Int.natAbs_neg, Int.natAbs_natCast]), List.forall_mem_cons.2
      ⟨Scope.allowsLine_saveTo (Nat.zero_le _) _, saves⟩⟩
  have whole := (labeled.instructions leaves).prepend enters
  refine ⟨emits.grows, _, ?_, whole⟩
  simp [prologue, epilogue]

/-! ## Programs -/

/-- What the code of functions refers to is there for all of them. -/
theorem compileFunctions_emits {n : Nat} {fs : List Function}
    (texts : ∀ f ∈ fs, ∀ e ∈ f.expressions, ∀ text ∈ e.texts, text ∈ constants)
    (room : ∀ f ∈ fs, f.room ≤ n)
    (done : compileFunctions constants arities fs σ = .ok (code, σ')) :
    σ.labels ≤ σ'.labels
      ∧ (labelsOf code).Perm
        ((fs.map Function.name).map functionLabel ++ numberedFrom σ.labels σ'.labels)
      ∧ ∀ line ∈ code, line.label? = none →
        (Scope.mk constants arities [] (numbered 0)).AllowsLine { labels := σ'.labels, peak := n }
          line := by
  induction fs generalizing σ code with
  | nil =>
    obtain ⟨rfl, rfl⟩ := compileFunctions_nil done
    refine ⟨Nat.le_refl _, ?_, nofun⟩
    rw [numberedFrom_self]
    exact .refl _
  | cons f fs ih =>
    obtain ⟨first, σ₁, rest, compiled, others, rfl⟩ := compileFunctions_cons done
    obtain ⟨texts, texts'⟩ := List.forall_mem_cons.1 texts
    obtain ⟨room, room'⟩ := List.forall_mem_cons.1 room
    obtain ⟨lt, inner, rfl, emits⟩ := f.emits texts compiled
    obtain ⟨le, labels, lines⟩ := ih texts' room' others
    refine ⟨Nat.le_trans (Nat.le_of_lt lt) le, ?_, List.forall_mem_append.2 ⟨?_, lines⟩⟩
    · rw [Assembly.labelsOf_append, ← numberedFrom_append (Nat.le_of_lt lt) le]
      have same := (emits.labels.append labels).trans (List.perm_append_comm_assoc ..)
      exact same.cons _
    · refine List.forall_mem_cons.2 ⟨nofun, fun line mem none => ?_⟩
      refine (emits.lines line mem none).widen ⟨Nat.le_refl _, rfl, ?_, le, ?_⟩
      · exact .inr (.inl ⟨_, Nat.lt_of_lt_of_le lt le, rfl⟩)
      · rw [List.length_nil, Nat.zero_add]
        exact Nat.le_trans (f.slots_le_room compiled) room

end

namespace Program

variable {p : Program} {l : Listing}

/-- What the code of a program refers to is there. -/
theorem emits {n : Nat}
    (texts : ∀ f ∈ p.functions, ∀ e ∈ f.expressions, ∀ text ∈ e.texts, text ∈ l.constants)
    (room : ∀ f ∈ p.functions, f.room ≤ n) (done : p.compile = .ok l) :
    ∃ arities count, aritiesFrom [] p.functions = .ok arities ∧ 0 < count
      ∧ (labelsOf l.lines).Perm
        ((p.functions.map Function.name).map functionLabel ++ numberedFrom 0 count)
      ∧ ∀ line ∈ l.lines, line.label? = none →
        (Scope.mk l.constants arities [] (numbered 0)).AllowsLine { labels := count, peak := n }
          line := by
  obtain ⟨arities, code, σ', -, known, main, compiled, lines⟩ := compile_eq_ok done
  obtain ⟨le, labels, allowed⟩ := compileFunctions_emits texts room compiled
  refine ⟨arities, σ'.labels, known, le, ?_, ?_⟩
  · have starts : labelsOf (startLines (numbered 0)) = [numbered 0] := rfl
    have ends : labelsOf [line "exitv" [.int 0]] = [] := rfl
    rw [lines, Assembly.labelsOf_append, Assembly.labelsOf_append, starts, ends, List.append_nil,
      numberedFrom_cons le]
    exact (labels.cons _).trans List.perm_middle.symm
  · have zero : (Scope.mk l.constants arities [] (numbered 0)).Allows { labels := σ'.labels, peak := n }
        (.int 0) := by
      unfold Scope.Allows
      omega
    rw [lines]
    refine List.forall_mem_append.2 ⟨List.forall_mem_append.2 ⟨?_, allowed⟩, ?_⟩
    · refine List.forall_mem_cons.2 ⟨fun _ => ?_, List.forall_mem_cons.2 ⟨fun _ => ?_,
        List.forall_mem_cons.2 ⟨nofun, List.forall_mem_singleton.2 fun _ => ?_⟩⟩⟩
      · exact ⟨.inr (.inl ⟨by decide, rfl⟩), rfl, List.forall_mem_cons.2
          ⟨trivial, List.forall_mem_singleton.2 (.inl rfl)⟩⟩
      · exact Scope.allowsLine_jumpv (.inr (.inr ⟨"main", main, rfl⟩))
      · exact ⟨.inl ⟨by decide, rfl⟩, rfl, List.forall_mem_singleton.2 trivial⟩
    · refine List.forall_mem_singleton.2 fun _ => ?_
      exact ⟨.inl ⟨by decide, rfl⟩, rfl, List.forall_mem_singleton.2 zero⟩

/-- There is a number of slots that is enough for all functions. -/
theorem exists_room (p : Program) : ∃ n, ∀ f ∈ p.functions, f.room ≤ n :=
  ⟨(p.functions.map Function.room).foldr max 0, fun _ mem =>
    List.le_max_of_le' 0 (List.mem_map_of_mem mem) (Nat.le_refl _)⟩

/-- A function that can be called is one of the functions. -/
theorem exists_of_lookup {arities : List (String × Nat)} (known : aritiesFrom [] p.functions = .ok arities)
    {name : String} (there : (arities.lookup name).isSome) : ∃ f ∈ p.functions, f.name = name := by
  obtain ⟨count, there⟩ := Option.isSome_iff_exists.1 there
  obtain ⟨f, found, same, -⟩ := find?_of_aritiesFrom known rfl there
  exact ⟨f, List.mem_of_find?_eq_some found, same⟩

/-- **The listing of a program** is well formed, if the texts of its functions are among its
constants. -/
theorem wellFormed_compile
    (texts : ∀ f ∈ p.functions, ∀ e ∈ f.expressions, ∀ text ∈ e.texts, text ∈ l.constants)
    (done : p.compile = .ok l) : l.WellFormed := by
  obtain ⟨n, room⟩ := p.exists_room
  obtain ⟨arities, count, known, pos, labels, lines⟩ := emits texts room done
  constructor
  case commands =>
    intro x mem
    cases x with
    | label => rfl
    | instruction => exact (lines _ mem rfl).2.1
  case distinct =>
    rw [labels.nodup_iff, List.nodup_append]
    refine ⟨List.Nodup.map functionLabel_injective (nodup_of_aritiesFrom known).1,
      List.Nodup.map numbered_injective (List.Ico.nodup 0 count), ?_⟩
    rintro _ mem _ mem' rfl
    obtain ⟨name, -, same⟩ := List.mem_map.1 mem
    obtain ⟨k, -, same'⟩ := List.mem_map.1 mem'
    exact numbered_ne_functionLabel k name (same'.trans same.symm)
  case there =>
    intro x mem o among
    cases x with
    | label => cases among
    | instruction mnemonic operands span =>
      have allowed := (lines _ mem rfl).2.2 o among
      cases o with
      | register | int => trivial
      | constant => exact allowed
      | label name =>
        show name ∈ labelsOf l.lines
        rw [labels.mem_iff, List.mem_append]
        have given {k : Nat} (lt : k < count) : numbered k ∈ numberedFrom 0 count :=
          List.mem_map_of_mem (List.Ico.mem.2 ⟨Nat.zero_le k, lt⟩)
        -- the label where the start goes on, another one with a number, or that of a function
        rcases allowed with rfl | ⟨k, lt, rfl⟩ | ⟨callee, there, rfl⟩
        · exact .inr (given pos)
        · exact .inr (given lt)
        · obtain ⟨f, mem, rfl⟩ := exists_of_lookup known there
          exact .inl (List.mem_map_of_mem (List.mem_map_of_mem mem))

/-- **The lines of a program** can be read again, if its functions are called by words. -/
theorem written_compile
    (texts : ∀ f ∈ p.functions, ∀ e ∈ f.expressions, ∀ text ∈ e.texts, text ∈ l.constants)
    (words : ∀ f ∈ p.functions, ∀ c ∈ f.name.toList, Lexicon.wordParts.contains c)
    (done : p.compile = .ok l) : ∀ x ∈ l.lines, x.Written := by
  obtain ⟨n, room⟩ := p.exists_room
  obtain ⟨arities, count, known, pos, labels, lines⟩ := emits texts room done
  have named {f : Function} (mem : f ∈ p.functions) : IsName (functionLabel f.name) :=
    isName_functionLabel (words f mem)
  intro x mem
  cases x with
  | label name span =>
    have among : name ∈ labelsOf l.lines := List.mem_filterMap.2 ⟨_, mem, rfl⟩
    rw [labels.mem_iff, List.mem_append, List.mem_map] at among
    rcases among with ⟨_, among, rfl⟩ | among
    · obtain ⟨f, mem', rfl⟩ := List.mem_map.1 among
      exact named mem'
    · obtain ⟨k, -, rfl⟩ := List.mem_map.1 among
      exact isName_numbered k
  | instruction mnemonic operands span =>
    obtain ⟨arity, -, allowed⟩ := lines _ mem rfl
    refine ⟨arity, fun o among => ?_⟩
    cases o with
    | register | int | constant => trivial
    | label name =>
      rcases allowed _ among with rfl | ⟨k, -, rfl⟩ | ⟨callee, there, rfl⟩
      · exact ⟨isName_numbered 0, ofName?_numbered 0⟩
      · exact ⟨isName_numbered k, ofName?_numbered k⟩
      · obtain ⟨f, mem, rfl⟩ := exists_of_lookup known there
        exact ⟨named mem, ofName?_functionLabel f.name⟩

/-- **The numbers of a program** can be read again, if there are not as many slots or texts as
there are numbers of 64 bits. -/
theorem fits_compile {n : Nat}
    (texts : ∀ f ∈ p.functions, ∀ e ∈ f.expressions, ∀ text ∈ e.texts, text ∈ l.constants)
    (room : ∀ f ∈ p.functions, f.room ≤ n) (small : n < 2 ^ 60) (few : l.constants.length ≤ 2 ^ 63)
    (done : p.compile = .ok l) : l.fits := by
  obtain ⟨arities, count, -, -, -, lines⟩ := emits texts room done
  refine List.all_eq_true.2 fun x mem => ?_
  cases x with
  | label => rfl
  | instruction mnemonic operands span =>
    have allowed := (lines _ mem rfl).2.2
    refine List.all_eq_true.2 fun o among => ?_
    cases o with
    | register | label => rfl
    | int value =>
      have le : value.natAbs ≤ 2 ^ 31 + 4 * (0 + n + 1) := allowed _ among
      refine decide_eq_true ?_
      simp only [Text.bitRange]
      omega
    | constant index =>
      have lt : index < l.constants.length := allowed _ among
      refine decide_eq_true ?_
      simp only [Text.bitRange]
      omega

end Program

end Polyglot.B
