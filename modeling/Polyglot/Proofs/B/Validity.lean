import Mathlib.Order.Nat
import Polyglot.Proofs.B.Contents
import Polyglot.Proofs.B.Output

/-!
# Compiled sources

What a source of B is compiled to can be read again: it is well formed, its texts are those of
the source, and it is assembled unless a number is too large for an instruction
(`compile_isAssembly`).
-/

namespace Polyglot.B

open Polyglot.Source (Span)
open Polyglot.Assembly (Listing AssemblyError)

/-! ## Programs that are read from trees -/

namespace Program

variable {t : Tree}

/-- The constants of a program are its texts, if all of them have a value. -/
theorem exists_of_constants {p : Program} {constants : List String} (has : p.constants = .ok constants) :
    ∃ texts : List String, p.texts = texts.map .ok ∧ constants = texts.eraseDups := by
  rw [Program.constants, Except.mapError_eq_ok, Except.map_eq_ok] at has
  obtain ⟨texts, read, rfl⟩ := has
  exact ⟨texts, Except.mapM_id_eq_ok.1 read, rfl⟩

theorem exists_of_mem {f : Function} (mem : f ∈ (ofTree t).functions) :
    ∃ u ∈ t.children, u.name = "function" ∧ f = Function.ofTree u := by
  obtain ⟨u, among, rfl⟩ := List.mem_map.1 mem
  obtain ⟨among, named⟩ := List.mem_filter.1 among
  exact ⟨u, among, beq_iff_eq.1 named, rfl⟩

/-- No more names are assigned in a function than the tree has tokens. -/
theorem length_assigned_le (readable : Readable t) {f : Function} (mem : f ∈ (ofTree t).functions) :
    f.assigned.length ≤ t.tokens.length := by
  obtain ⟨u, among, -, rfl⟩ := exists_of_mem mem
  show (((u.labeled? "body").map assignedIn).getD []).length ≤ _
  cases found : u.labeled? "body" with
  | none => exact Nat.zero_le _
  | some body =>
    have below : body ∈ u.children := List.mem_of_find?_eq_some found
    have inside := Tree.mem_parts_of_mem_children
      (Tree.mem_parts_of_mem_children t.self_mem_parts among) below
    have le := length_assignedIn_le body ((readable.below among).below below)
    exact Nat.le_trans le (t.tokens_isInfix_of_mem_parts body inside).length_le

/-- The expressions of the functions are held by the tree. -/
theorem holds_ofTree (readable : Readable t) {f : Function} (mem : f ∈ (ofTree t).functions) :
    ∀ e ∈ f.expressions, Holds [t] [e] := by
  obtain ⟨u, among, -, rfl⟩ := exists_of_mem mem
  unfold Function.expressions
  show ∀ e ∈ (((u.labeled? "body").map Statement.ofTree).map Statement.expressions).getD [], _
  cases found : u.labeled? "body" with
  | none => nofun
  | some body =>
    have below : body ∈ u.children := List.mem_of_find?_eq_some found
    have inner := readable.below among
    intro e mem
    have held := Statement.holds_ofTree body (inner.below below) e mem
    exact (held.lift inner below).lift readable among

/-- The frames of the functions have room for no more than a few slots for each token. -/
theorem room_le (readable : Readable t) {arities : List (String × Nat)}
    (known : aritiesFrom [] (ofTree t).functions = .ok arities) {f : Function}
    (mem : f ∈ (ofTree t).functions) : f.room ≤ maxParameters + 3 * t.tokens.length := by
  have few : f.parameters.length ≤ maxParameters := few_of_aritiesFrom known f mem
  have assigned := length_assigned_le readable mem
  have names : f.names.length ≤ f.parameters.length + f.assigned.length := by
    rw [← List.length_append]
    exact length_eraseDups_le _
  have demand : (f.expressions.map Expression.demand).foldr max 0 ≤ t.tokens.length := by
    refine List.max_le_of_forall_le (f.expressions.map Expression.demand) _
      (List.forall_mem_map.2 fun e inside => ?_)
    have held := (holds_ofTree readable mem e inside).demand
    simpa [demandAll] using held
  unfold Function.room
  omega

end Program

/-! ## Sources -/

section

variable {t : Tree} {l : Listing}

/-- A tree like those of sentences can be read if all its texts have a value. -/
theorem readable_of_textsIn {texts : List String} (sentence : IsSentence t)
    (has : textsIn t = texts.map .ok) : Readable t where
  opens := sentence.opens
  texts x mem := by
    rw [has] at mem
    obtain ⟨text, -, rfl⟩ := List.mem_map.1 mem
    exact ⟨text, rfl⟩

/-- What is compiled from a tree like those of sentences: it can be read, and the constants are
the texts among its tokens. -/
theorem readable_of_compile (sentence : IsSentence t) (compiled : compile t = .ok l) :
    Readable t ∧ l.constants = (t.tokens.filterMap Token.str?).eraseDups := by
  obtain ⟨-, -, -, constants, -⟩ := Program.compile_eq_ok compiled
  obtain ⟨texts, has, eq⟩ := Program.exists_of_constants constants
  have readable : Readable t := readable_of_textsIn sentence has
  have same : textsIn t = (t.tokens.filterMap Token.str?).map .ok :=
    textsIn_eq t readable sentence.texts
  have values : texts = t.tokens.filterMap Token.str? :=
    List.map_injective_iff.2 (fun _ _ => Except.ok.inj) (has.symm.trans same)
  exact ⟨readable, eq.trans (congrArg List.eraseDups values)⟩

/-- The texts of the functions are among the constants. -/
theorem texts_of_compile (sentence : IsSentence t) (compiled : compile t = .ok l) :
    ∀ f ∈ (Program.ofTree t).functions, ∀ e ∈ f.expressions, ∀ text ∈ e.texts,
      text ∈ l.constants := by
  obtain ⟨-, -, -, constants, -⟩ := Program.compile_eq_ok compiled
  obtain ⟨texts, has, eq⟩ := Program.exists_of_constants constants
  have readable : Readable t := readable_of_textsIn sentence has
  intro f mem e inside text among
  have held := (Program.holds_ofTree readable mem e inside).texts text
    (by simpa [textsAll] using among)
  rw [textsInList_eq, List.flatMap_singleton] at held
  rw [eq, List.mem_eraseDups]
  have values : textsIn t = texts.map .ok := has
  rw [values] at held
  obtain ⟨other, mem', same⟩ := List.mem_map.1 held
  exact Except.ok.inj same ▸ mem'

end

section

variable {source : String} {raw : Tree} {l : Listing}

/-- The lines that a source is compiled to can be read again. -/
theorem written_of_compile (parsed : language.parse source = .ok raw)
    (compiled : compile (language.shake raw) = .ok l) : ∀ x ∈ l.lines, x.Written := by
  have sentence : IsSentence (language.shake raw) := isSentence_shake parsed
  have words : ∀ f ∈ (Program.ofTree (language.shake raw)).functions,
      ∀ c ∈ f.name.toList, Lexicon.wordParts.contains c := by
    intro f mem
    obtain ⟨u, among, named, rfl⟩ := Program.exists_of_mem mem
    exact sentence.words u among named
  exact Program.written_compile (texts_of_compile sentence compiled) words compiled

/-- What the written form of the lines is assembled to is what the lines are assembled to, if
the numbers in them can be read. -/
theorem toOption_assemble (parsed : language.parse source = .ok raw)
    (compiled : compile (language.shake raw) = .ok l) {t u : Tree}
    (read : Assembly.language.parse l.source = .ok t)
    (form : u = t ∨ u = Assembly.language.shake t) :
    (Assembly.assemble u).toOption = if l.fits then l.assemble.toOption else none := by
  have again := Listing.reread (written_of_compile parsed compiled) read form
  have assembled : (Assembly.assemble u).toOption
      = ((Listing.ofTree u).toOption.map Listing.unplaced).bind (·.assemble.toOption) := by
    rw [Assembly.assemble, Except.toOption_bind]
    cases (Listing.ofTree u).toOption with
    | none => rfl
    | some l' => exact (Listing.assemble_unplaced l').symm
  rw [assembled, again]
  split
  · exact Listing.assemble_unplaced l
  · rfl

/-- **A compiled source is a source of the assembly language.** What comes out is read again.
The texts of what is read are those of the source, each of them once and in the order in
which they come first, and it is assembled unless a number is too large for an instruction.

The tokens of a source are held in memory, so there are fewer than `2 ^ 57` of them. -/
theorem compile_isAssembly (parsed : language.parse source = .ok raw)
    (compiled : compile (language.shake raw) = .ok l) (few : raw.tokens.length < 2 ^ 57) :
    ∃ t, Assembly.language.parse l.source = .ok t
      ∧ ∀ u, u = t ∨ u = Assembly.language.shake t →
        (∃ l', Listing.ofTree u = .ok l'
          ∧ l'.constants = (raw.tokens.filterMap Token.str?).eraseDups)
        ∧ ((∃ code, Assembly.assemble u = .ok code)
          ∨ ∃ index span cause, Assembly.assemble u = .error (.encoding index span cause)) := by
  have sentence : IsSentence (language.shake raw) := isSentence_shake parsed
  have kept : (language.shake raw).tokens = raw.tokens := Shake.tokens_shake rfl raw
  obtain ⟨readable, constants⟩ := readable_of_compile sentence compiled
  have texts := texts_of_compile sentence compiled
  obtain ⟨arities, code, supply, -, known, -⟩ := Program.compile_eq_ok compiled
  rw [kept] at constants
  have written := written_of_compile parsed compiled
  have wellFormed := Program.wellFormed_compile texts compiled
  have distinct : l.constants.length ≤ raw.tokens.length := by
    rw [constants]
    exact Nat.le_trans (length_eraseDups_le _) (List.length_filterMap_le ..)
  have small : maxParameters + 3 * raw.tokens.length < 2 ^ 60 := by
    unfold maxParameters
    omega
  have room : ∀ f ∈ (Program.ofTree (language.shake raw)).functions,
      f.room ≤ maxParameters + 3 * raw.tokens.length := fun f mem =>
    kept ▸ Program.room_le readable known mem
  have fits : l.fits := Program.fits_compile texts room small (by omega) compiled
  obtain ⟨t, read, -⟩ := Listing.parse_source written
  refine ⟨t, read, fun u form => ?_⟩
  -- the same lines are read again, apart from where they stand
  have again := Listing.reread written read form
  rw [if_pos fits] at again
  obtain ⟨l', there, same⟩ := Option.map_eq_some_iff.1 again
  replace there := Except.toOption_eq_some.1 there
  have wellFormed' : l'.WellFormed :=
    Listing.wellFormed_unplaced.1 (same ▸ Listing.wellFormed_unplaced.2 wellFormed)
  refine ⟨⟨l', there, ?_⟩, ?_⟩
  · have texts' : l'.unplaced.constants = l.unplaced.constants := congrArg Listing.constants same
    rw [← constants]
    exact texts'
  · have whole : Assembly.assemble u = l'.assemble := by
      rw [Assembly.assemble, there]
      rfl
    rw [whole]
    cases assembled : l'.assemble with
    | ok code => exact .inl ⟨code, rfl⟩
    | error e =>
      obtain ⟨index, span, cause, rfl⟩ := wellFormed'.isEncoding assembled
      exact .inr ⟨index, span, cause, rfl⟩

end

/-- A source with the same text twice, in which there is a quotation mark. -/
def twice : String := "fn main()\x7bprint(\"a\\\"b\");print(\"a\\\"b\");\x7d"

theorem compile_isAssembly_twice :
    ∃ raw l, language.parse twice = .ok raw ∧ compile (language.shake raw) = .ok l
      ∧ raw.tokens.length < 2 ^ 57 ∧ raw.tokens.filterMap Token.str? = ["a\"b", "a\"b"]
      ∧ ∃ t, Assembly.language.parse l.source = .ok t
        ∧ ∀ u, u = t ∨ u = Assembly.language.shake t →
          (∃ l', Listing.ofTree u = .ok l' ∧ l'.constants = ["a\"b"])
          ∧ ((∃ code, Assembly.assemble u = .ok code)
            ∨ ∃ index span cause, Assembly.assemble u = .error (.encoding index span cause)) := by
  have checked : ((lexicon.tokenize twice.toList).toOption.bind (readGrammar.parseAlong 80)).any
      fun raw => (compile (language.shake raw)).toOption.isSome && raw.tokens.length < 2 ^ 57
        && raw.tokens.filterMap Token.str? == ["a\"b", "a\"b"] := by
    decide +kernel
  obtain ⟨raw, read, checked⟩ := (Option.any_eq_true ..).1 checked
  obtain ⟨ts, cut, read⟩ := Option.bind_eq_some_iff.1 read
  rw [Bool.and_eq_true, Bool.and_eq_true, Option.isSome_iff_exists] at checked
  obtain ⟨⟨⟨l, compiled⟩, few⟩, texts⟩ := checked
  have parsed : language.parse twice = .ok raw := parse_eq_ok.2
    ⟨ts, Except.toOption_eq_some.1 cut, Grammar.parseTokens_of_parseAlong read⟩
  replace compiled := Except.toOption_eq_some.1 compiled
  replace few := of_decide_eq_true few
  replace texts := beq_iff_eq.1 texts
  have read := compile_isAssembly parsed compiled few
  rw [texts] at read
  exact ⟨raw, l, parsed, compiled, few, texts, read⟩

end Polyglot.B
