import Polyglot.Assembly.Listing
import Polyglot.Proofs.Assembly.Printing
import Polyglot.Proofs.Lexis.Spelling

/-!
# Written listings

A listing is written as a source with one item on a line. What its tokens are is told by its
parts, if the names in it are names and its instructions have as many operands as they take
(`Line.Written`). The source holds these tokens (`Listing.laid_source`).
-/

namespace Polyglot.Assembly

open Polyglot.Lexicon (Blank Laid Shape mark nameToken numberToken textToken)
open Polyglot.Machine (Register)

/-! ## Tokens -/

/-- Whether a text is one word, and not one that means something of its own. -/
def IsName (name : String) : Prop :=
  lexicon.longest name.toList = some (.identifier, name.toList.length)

/-- The tokens of an operand. -/
def Operand.tokens : Operand → List Token
  | register r => [nameToken r.name]
  | label name => [nameToken name]
  | int (.ofNat n) => [numberToken n]
  | int (.negSucc n) => [mark "-", numberToken (n + 1)]
  | constant index => [mark "=", numberToken index]

/-- The tokens of a line. -/
def Line.tokens : Line → List Token
  | label name _ => [nameToken name, mark ":"]
  | instruction mnemonic operands _ => mark mnemonic :: operands.flatMap Operand.tokens

/-- The tokens of a listing. -/
def Listing.tokens (l : Listing) : List Token :=
  mark ".data" :: l.constants.map textToken ++ mark ".code" :: l.lines.flatMap Line.tokens

/-- Whether an operand is read as itself: if it is a label, it has a name, and not that of a
register. -/
def Operand.Written : Operand → Prop
  | label name => IsName name ∧ Register.ofName? name = none
  | _ => True

/-- Whether a line is read as itself. -/
def Line.Written : Line → Prop
  | label name _ => IsName name
  | instruction mnemonic operands _ =>
    HasArity mnemonic operands.length ∧ ∀ o ∈ operands, o.Written

/-! ## Whole tokens -/

theorem IsName.whole {name : String} (h : IsName name) : lexicon.Whole (nameToken name) :=
  Lexicon.whole_token h

theorem isName_register (r : Register) : IsName r.name := by
  have each : ∀ i : Fin 32, lexicon.longest (Register.mk i).name.toList
      = some (.identifier, (Register.mk i).name.toList.length) := by
    decide
  exact each r.index

/-- What starts with a character that no text of its own starts with, and goes on with
characters of words, is a name. -/
theorem isName_of_initial {name : String} {c : Char} {rest : List Char}
    (list : name.toList = c :: rest)
    (alone : lexicon.shapes.all fun s => !s.starts c || s == .identifier)
    (initial : Lexicon.initials.contains c) (parts : ∀ d ∈ rest, Lexicon.wordParts.contains d) :
    IsName name := by
  rw [IsName, list]
  refine Lexicon.longest_of_alone (by decide) (Shape.reach?_identifier.2 ⟨initial, parts⟩)
    fun s mem starts => ?_
  have here := List.all_eq_true.1 alone s mem
  rw [starts] at here
  exact beq_iff_eq.1 here

theorem whole_numberToken (n : Nat) : lexicon.Whole (numberToken n) :=
  Lexicon.whole_numberToken (by decide) (by decide) n

theorem whole_constant (text : String) : lexicon.Whole (textToken text) :=
  Lexicon.whole_textToken (by decide) (by decide) text

theorem whole_minus : lexicon.Whole (mark "-") := Lexicon.whole_token (by decide)

theorem whole_equals : lexicon.Whole (mark "=") := Lexicon.whole_token (by decide)

theorem whole_colon : lexicon.Whole (mark ":") := Lexicon.whole_token (by decide)

theorem whole_mnemonic {mnemonic : String} {count : Nat} (h : HasArity mnemonic count) :
    lexicon.Whole (mark mnemonic) := by
  have each : ∀ m ∈ mnemonics₁ ++ mnemonics₂ ++ mnemonics₃,
      lexicon.longest m.toList = some (.exact m, m.toList.length) := by
    decide
  refine Lexicon.whole_token (each mnemonic ?_)
  rcases h with ⟨mem, -⟩ | ⟨mem, -⟩ | ⟨mem, -⟩ <;> simp [mem]

theorem Operand.Written.whole {o : Operand} (h : o.Written) : ∀ t ∈ o.tokens, lexicon.Whole t := by
  cases o with
  | register r => exact List.forall_mem_singleton.2 (isName_register r).whole
  | label name => exact List.forall_mem_singleton.2 h.1.whole
  | int value =>
    cases value with
    | ofNat n => exact List.forall_mem_singleton.2 (whole_numberToken n)
    | negSucc n =>
      exact List.forall_mem_cons.2 ⟨whole_minus, List.forall_mem_singleton.2 (whole_numberToken _)⟩
  | constant index =>
    exact List.forall_mem_cons.2 ⟨whole_equals, List.forall_mem_singleton.2 (whole_numberToken _)⟩

theorem Line.Written.whole {line : Line} (h : line.Written) : ∀ t ∈ line.tokens, lexicon.Whole t := by
  cases line with
  | label name span =>
    exact List.forall_mem_cons.2 ⟨IsName.whole h, List.forall_mem_singleton.2 whole_colon⟩
  | instruction mnemonic operands span =>
    obtain ⟨arity, written⟩ := h
    refine List.forall_mem_cons.2 ⟨whole_mnemonic arity, fun t mem => ?_⟩
    obtain ⟨o, mem, mem'⟩ := List.mem_flatMap.1 mem
    exact (written o mem).whole t mem'

theorem Listing.whole_tokens {l : Listing} (written : ∀ line ∈ l.lines, line.Written) :
    ∀ t ∈ l.tokens, lexicon.Whole t := by
  intro t mem
  rw [tokens, List.cons_append, List.mem_cons, List.mem_append, List.mem_cons, List.mem_map,
    List.mem_flatMap] at mem
  rcases mem with rfl | ⟨text, -, rfl⟩ | rfl | ⟨line, mem, mem'⟩
  · exact Lexicon.whole_token (by decide)
  · exact whole_constant text
  · exact Lexicon.whole_token (by decide)
  · exact (written line mem).whole t mem'

/-! ## Lines that hold them -/

theorem laid_single (t : Token) : Laid lexicon [t] t.lexeme.toList := by
  have laid : Laid lexicon [t] (t.lexeme.toList ++ []) := .next nofun (.done nofun)
  rwa [List.append_nil] at laid

/-- A token that nothing goes on with, and another one. -/
theorem laid_pair {t u : Token} (closed : lexicon.isClosed t.lexeme.toList) :
    Laid lexicon [t, u] (t.lexeme.toList ++ u.lexeme.toList) :=
  .next (fun c _ => Lexicon.not_continues_of_isClosed closed c) (laid_single u)

theorem laid_operand (o : Operand) : Laid lexicon o.tokens o.text.toList := by
  cases o with
  | register r => exact laid_single _
  | label name => exact laid_single _
  | int value =>
    cases value with
    | ofNat n => exact laid_single (numberToken n)
    | negSucc n =>
      have text : (Operand.int (.negSucc n)).text = "-" ++ (n + 1).repr := rfl
      rw [text, String.toList_append]
      exact laid_pair (t := mark "-") (by decide)
  | constant index =>
    have text : (Operand.constant index).text = "=" ++ index.repr := by
      simp [Operand.text]
      rfl
    rw [text, String.toList_append]
    exact laid_pair (t := mark "=") (by decide)

theorem laid_line {line : Line} (h : line.Written) : Laid lexicon line.tokens line.text.toList := by
  cases line with
  | label name span =>
    rw [Line.text, String.toList_append]
    refine .next (fun c first => ?_) (laid_single (mark ":"))
    obtain rfl := Option.some.inj first
    exact (IsName.whole h).not_continues_of_isOpening tidy_lexicon (by decide)
  | instruction mnemonic operands span =>
    obtain ⟨arity, written⟩ := h
    have each : List.Forall₂ (Laid lexicon) (operands.map Operand.tokens)
        ((operands.map Operand.text).map String.toList) := by
      rw [List.map_map, List.forall₂_map_left_iff, List.forall₂_map_right_iff, List.forall₂_same]
      exact fun o _ => laid_operand o
    have spaced := Laid.intercalate [' '] tidy_lexicon (by decide) (by decide)
      (List.forall_mem_map.2 fun o mem => (written o mem).whole) each
    rw [Line.text, Line.instructionText, String.toList_append, String.toList_append,
      List.append_assoc, String.toList_intercalate]
    refine .next (fun c first => ?_) (spaced.after_blank [' '] (by decide))
    obtain rfl := Option.some.inj first
    exact (whole_mnemonic arity).not_continues_blank tidy_lexicon (by decide)

theorem laid_indented {line : Line} (h : line.Written) :
    Laid lexicon line.tokens line.indented.toList := by
  cases line with
  | label name span => exact laid_line h
  | instruction mnemonic operands span =>
    rw [Line.indented, String.toList_append]
    exact (laid_line h).after_blank _ (by decide)

/-! ## The source -/

theorem hold_map {α : Type} {items : List α} {text : α → String} {tokens : α → List Token}
    (each : ∀ a ∈ items, Laid lexicon (tokens a) (text a).toList) :
    Hold (items.map text) (items.flatMap tokens) := by
  refine ⟨items.map tokens, List.flatMap_def.symm, ?_⟩
  rw [List.map_map, List.forall₂_map_left_iff, List.forall₂_map_right_iff, List.forall₂_same]
  exact each

/-- Lines that hold tokens hold them when each is ended by a line feed. -/
theorem Hold.laid_unlines {lines : List String} {ts : List Token} (h : Hold lines ts)
    (whole : ∀ t ∈ ts, lexicon.Whole t) : Laid lexicon ts (unlines lines).toList := by
  obtain ⟨tss, rfl, each⟩ := h
  generalize eq : lines.map String.toList = texts at each
  induction each generalizing lines with
  | nil =>
    obtain rfl := List.map_eq_nil_iff.1 eq
    exact .done nofun
  | @cons ts text tss texts first others ih =>
    obtain ⟨line, lines, rfl, rfl, rfl⟩ := List.map_eq_cons_iff.1 eq
    rw [List.flatten_cons] at whole ⊢
    have later := ih (fun t mem => whole t (List.mem_append_right _ mem)) rfl
    rw [unlines, List.map_cons, String.join_cons, String.toList_append, String.toList_push,
      List.append_assoc]
    refine first.append (fun t mem => whole t (List.mem_append_left _ mem))
      (later.after_blank ['\n'] (by decide)) fun t last c head => ?_
    obtain rfl := Option.some.inj head
    exact (whole t (List.mem_append_left _ (List.mem_of_mem_getLast? last))).not_continues_blank
      tidy_lexicon (by decide)

/-- **The source of a listing** holds its tokens. -/
theorem Listing.laid_source {l : Listing} (written : ∀ line ∈ l.lines, line.Written) :
    Laid lexicon l.tokens l.source.toList := by
  refine Hold.laid_unlines ?_ (whole_tokens written)
  have header (text : String) : Hold [text] [mark text] :=
    ⟨[[mark text]], rfl, .cons (laid_single (mark text)) .nil⟩
  have constants : Hold (l.constants.map fun c => "    " ++ Text.quote c)
      (l.constants.flatMap fun c => [textToken c]) := by
    refine hold_map fun c _ => ?_
    rw [String.toList_append]
    exact (laid_single (textToken c)).after_blank _ (by decide)
  have code := hold_map fun line mem => laid_indented (written line mem)
  have all := (((header ".data").append constants).append (header ".code")).append code
  rw [← List.map_eq_flatMap] at all
  simpa [tokens] using all

/-- **The source of a listing is cut** into its tokens, up to where they stand. -/
theorem Listing.tokenize_source {l : Listing} (written : ∀ line ∈ l.lines, line.Written) :
    ∃ ts, lexicon.tokenize l.source.toList = .ok ts
      ∧ List.Forall₂ (fun t u => t.agrees u) l.tokens ts :=
  Lexicon.tokenize_laid tidy_lexicon (whole_tokens written) (laid_source written)

end Polyglot.Assembly
