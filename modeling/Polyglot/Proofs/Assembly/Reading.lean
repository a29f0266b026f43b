import Polyglot.Assembly.Assemble
import Polyglot.Proofs.Assembly.Written
import Polyglot.Proofs.Parsing.Agreement
import Polyglot.Proofs.Parsing.Predictive

/-!
# Reading listings back

The source of a listing is read as the listing again. Which tree its tokens have is told by
its parts (`Listing.tree`), as the next token always says which alternative it is for
(`Listing.parse_source`).
-/

namespace Polyglot.Assembly

open Polyglot.Along (RuleReads SymbolReads TermReads SeqReads)
open Polyglot.Lexicon (Shape isReserved_quote mark nameToken numberToken textToken)
open Polyglot.Machine (Register)
open Polyglot.Source

/-! ## The trees of listings -/

/-- The trees of a repetition: in a raw tree they are held by a tree of their own. -/
def held (raw : Bool) (name : String) (items : List Tree) : List Tree :=
  if raw then [.node name none none items] else items

/-- The tree of an operand. -/
def Operand.tree (raw : Bool) : Operand → Tree
  | register r => .node "operand" none (some 0) [.leaf "name" none (some "identifier") (nameToken r.name)]
  | label name => .node "operand" none (some 0) [.leaf "name" none (some "identifier") (nameToken name)]
  | int (.ofNat n) =>
    .node "operand" none (some 1) [.node "integer" none (some 0)
      (held raw (Text.quote "-" ++ "?") [] ++ [.ofToken (numberToken n)])]
  | int (.negSucc n) =>
    .node "operand" none (some 1) [.node "integer" none (some 0)
      (held raw (Text.quote "-" ++ "?") [.ofToken (mark "-")] ++ [.ofToken (numberToken (n + 1))])]
  | constant index =>
    .node "operand" none (some 2) [.node "constant_ref" none (some 0)
      [.ofToken (mark "="), .ofToken (numberToken index)]]

@[simp] theorem Operand.withLabel_tree (raw : Bool) (o : Operand) :
    (o.tree raw).withLabel none = o.tree raw := by
  cases o with
  | int value => cases value <;> rfl
  | register | label | constant => rfl

/-- The rule of the mnemonics with a number of operands. -/
def mnemonicRule : Nat → String × List String
  | 1 => ("op1", mnemonics₁)
  | 2 => ("op2", mnemonics₂)
  | _ => ("op3", mnemonics₃)

/-- The tree of the mnemonic of an instruction with a number of operands. -/
def mnemonicTree (mnemonic : String) (count : Nat) : Tree :=
  .node (mnemonicRule count).1 (some "op") (some ((mnemonicRule count).2.idxOf mnemonic))
    [.ofToken (mark mnemonic)]

/-- The tree of a line, without the one that says that it is one. -/
def Line.tree (raw : Bool) : Line → Tree
  | label name _ =>
    .node "label" none (some 0) [(Tree.ofToken (nameToken name)).withLabel (some "name"), .ofToken (mark ":")]
  | instruction mnemonic operands _ =>
    .node "instruction" none (some (operands.length - 1))
      (mnemonicTree mnemonic operands.length :: operands.map (Operand.tree raw))

/-- The number of the alternative that a line is. -/
def Line.choice : Line → Nat
  | label .. => 0
  | instruction .. => 1

/-- The tree of a line, in a raw tree with the one that says that it is one. -/
def Line.item (raw : Bool) (line : Line) : Tree :=
  if raw then .node "line" none (some line.choice) [line.tree raw] else line.tree raw

/-- The tree of a text of the data section. -/
def constantTree (text : String) : Tree :=
  .leaf "constant" none (some "escaped_string") (textToken text)

/-- The tree of a listing. -/
def Listing.tree (raw : Bool) (l : Listing) : Tree :=
  .node "a" none (some 0)
    (held raw "data?" [.node "data" none (some 0)
        (.ofToken (mark ".data") :: held raw "constant*" (l.constants.map constantTree))]
      ++ [.node "code" none (some 0)
        (.ofToken (mark ".code") :: held raw "line*" (l.lines.map (Line.item raw)))])

/-! ## Which tree the tokens have -/

section

variable {depth base : Nat} {rest : List Token}

theorem word_reads {text : String} :
    TermReads readGrammar depth base (word text) [mark text] (.ofToken (mark text)) rest :=
  .once rfl rfl (.terminal rfl (isReserved_quote text))

theorem digits_reads {n : Nat} :
    TermReads readGrammar depth base { symbol := .terminal "decimal_integer" } [numberToken n]
      (.ofToken (numberToken n)) rest :=
  .once rfl rfl (.terminal rfl (by decide))

/-! ### Operands -/

theorem name_reads (name : String) : RuleReads readGrammar 2 9 [nameToken name]
    (.node "operand" none (some 0) [.leaf "name" none (some "identifier") (nameToken name)])
    rest := by
  have alone : RuleReads readGrammar 1 13 [nameToken name]
      (.leaf "name" none (some "identifier") (nameToken name)) rest := .another rfl rfl (by decide)
  have selected : Along.selects readGrammar "identifier" 1 9 0 := by decide
  exact .alternative rfl rfl rfl selected (.one (.once rfl rfl (.rule (by decide) alone)))

theorem integer_reads (value : Int) :
    RuleReads readGrammar 2 9 (Operand.int value).tokens ((Operand.int value).tree true) rest := by
  cases value with
  | ofNat n =>
    have unsigned : Along.refusesAfter readGrammar (some "decimal_integer") 0 10
        (.terminal (Text.quote "-")) := by decide
    have selected : Along.selects readGrammar "decimal_integer" 0 10 0 := by decide
    have alone : RuleReads readGrammar 1 10 [numberToken n]
        (.node "integer" none (some 0)
          [.node (Text.quote "-" ++ "?") none none [], .ofToken (numberToken n)]) rest :=
      .alternative rfl rfl rfl selected (.cons (.optional_none rfl unsigned) (.one digits_reads))
    have selected : Along.selects readGrammar "decimal_integer" 1 9 1 := by decide
    exact .alternative rfl rfl rfl selected (.one (.once rfl rfl (.rule (by decide) alone)))
  | negSucc n =>
    have signed : TermReads readGrammar 0 10 { word "-" with multiplicity := .optional } [mark "-"]
        (.node (Text.quote "-" ++ "?") none none [.ofToken (mark "-")])
        ([numberToken (n + 1)] ++ rest) :=
      .optional_some rfl (List.cons_ne_nil _ _) (.terminal rfl (isReserved_quote _))
    have selected : Along.selects readGrammar (Text.quote "-") 0 10 0 := by decide
    have alone : RuleReads readGrammar 1 10 [mark "-", numberToken (n + 1)]
        (.node "integer" none (some 0)
          [.node (Text.quote "-" ++ "?") none none [.ofToken (mark "-")],
            .ofToken (numberToken (n + 1))]) rest :=
      .alternative rfl rfl rfl selected (.cons signed (.one digits_reads))
    have selected : Along.selects readGrammar (Text.quote "-") 1 9 1 := by decide
    exact .alternative rfl rfl rfl selected (.one (.once rfl rfl (.rule (by decide) alone)))

theorem operand_reads (o : Operand) : RuleReads readGrammar 2 9 o.tokens (o.tree true) rest := by
  cases o with
  | register r => exact name_reads r.name
  | label name => exact name_reads name
  | int value => exact integer_reads value
  | constant index =>
    have selected : Along.selects readGrammar (Text.quote "=") 0 11 0 := by decide
    have alone : RuleReads readGrammar 1 11 [mark "=", numberToken index]
        (.node "constant_ref" none (some 0) [.ofToken (mark "="), .ofToken (numberToken index)])
        rest :=
      .alternative rfl rfl rfl selected (.cons word_reads (.one digits_reads))
    have selected : Along.selects readGrammar (Text.quote "=") 1 9 2 := by decide
    exact .alternative rfl rfl rfl selected (.one (.once rfl rfl (.rule (by decide) alone)))

/-! ### Lines -/

/-- A rule that is a list of words is found as the word that is there. -/
theorem mnemonic_reads {id : Nat} {name m : String} {ms : List String} (nodup : ms.Nodup)
    (at_ : readGrammar.rules[id]? = some ⟨name, .choice (ms.map fun m => [word m])⟩) (mem : m ∈ ms) :
    RuleReads readGrammar 2 id [mark m] (.node name none (some (ms.idxOf m)) [.ofToken (mark m)])
      rest := by
  have index : ms[ms.idxOf m]? = some m := List.getElem?_idxOf mem
  have selected : Along.selects readGrammar (Text.quote m) 1 id (ms.idxOf m) := by
    rw [Along.selects, at_]
    dsimp only
    refine List.all_eq_true.2 fun terms mem' => ?_
    obtain ⟨j, ne, there⟩ := List.mem_eraseIdx_iff_getElem?.1 mem'
    rw [List.getElem?_map, Option.map_eq_some_iff] at there
    obtain ⟨other, there, rfl⟩ := there
    have differs : Text.quote m ≠ Text.quote other := fun same => ne <|
      (List.getElem?_inj (List.getElem?_eq_some_iff.1 there).1 nodup).1
        (by rw [there, index, Text.quote_injective same])
    simp [Along.refusesAll, Along.refusesSymbol, Along.refusesTerminal, word, isReserved_quote,
      differs]
  exact .alternative at_ (by rw [List.getElem?_map, index]; rfl) rfl selected (.one word_reads)

theorem op_reads {mnemonic : String} {count : Nat} (arity : HasArity mnemonic count) :
    TermReads readGrammar 2 5 { symbol := .rule (5 + count), label := some "op" } [mark mnemonic]
      (mnemonicTree mnemonic count) rest := by
  rcases arity with ⟨mem, rfl⟩ | ⟨mem, rfl⟩ | ⟨mem, rfl⟩
  · exact .once rfl rfl (.rule (by decide) (mnemonic_reads (by decide) rfl mem))
  · exact .once rfl rfl (.rule (by decide) (mnemonic_reads (by decide) rfl mem))
  · exact .once rfl rfl (.rule (by decide) (mnemonic_reads (by decide) rfl mem))

theorem operands_read (operands : List Operand) :
    SeqReads readGrammar 2 5 (List.replicate operands.length { symbol := .rule 9 })
      (operands.flatMap Operand.tokens) (operands.map (Operand.tree true)) rest := by
  induction operands with
  | nil => exact .nil
  | cons o operands ih =>
    exact .cons (.once rfl (o.withLabel_tree true) (.rule (by decide) (operand_reads o))) ih

theorem instruction_reads {mnemonic : String} {operands : List Operand} {span : Span}
    (arity : HasArity mnemonic operands.length) :
    RuleReads readGrammar 3 5 (Line.instruction mnemonic operands span).tokens
      ((Line.instruction mnemonic operands span).tree true) rest := by
  have reads : SeqReads readGrammar 2 5
      ({ symbol := .rule (5 + operands.length), label := some "op" }
        :: List.replicate operands.length { symbol := .rule 9 })
      ([mark mnemonic] ++ operands.flatMap Operand.tokens)
      (mnemonicTree mnemonic operands.length :: operands.map (Operand.tree true)) rest :=
    .cons (op_reads arity) (operands_read operands)
  have first : ∀ m ∈ mnemonics₁, Along.selects readGrammar (Text.quote m) 2 5 0 := by decide
  have second : ∀ m ∈ mnemonics₂, Along.selects readGrammar (Text.quote m) 2 5 1 := by decide
  have third : ∀ m ∈ mnemonics₃, Along.selects readGrammar (Text.quote m) 2 5 2 := by decide
  rw [Line.tree]
  generalize operands.length = count at arity reads
  rcases arity with ⟨mem, rfl⟩ | ⟨mem, rfl⟩ | ⟨mem, rfl⟩
  · exact .alternative rfl rfl rfl (first _ mem) reads
  · exact .alternative rfl rfl rfl (second _ mem) reads
  · exact .alternative rfl rfl rfl (third _ mem) reads

theorem line_reads {line : Line} (written : line.Written) :
    RuleReads readGrammar 4 3 line.tokens (line.item true) rest := by
  cases line with
  | label name span =>
    have named : TermReads readGrammar 2 4 { symbol := .terminal "identifier", label := some "name" }
        [nameToken name] ((Tree.ofToken (nameToken name)).withLabel (some "name")) ([mark ":"] ++ rest) :=
      .once rfl rfl (.terminal rfl (by decide))
    have selected : Along.selects readGrammar "identifier" 2 4 0 := by decide
    have alone : RuleReads readGrammar 3 4 [nameToken name, mark ":"]
        ((Line.label name span).tree true) rest :=
      .alternative rfl rfl rfl selected (.cons named (.one word_reads))
    have selected : Along.selects readGrammar "identifier" 3 3 0 := by decide
    exact .alternative rfl rfl rfl selected (.one (.once rfl rfl (.rule (by decide) alone)))
  | instruction mnemonic operands span =>
    have selected : ∀ m ∈ mnemonics₁ ++ mnemonics₂ ++ mnemonics₃,
        Along.selects readGrammar (Text.quote m) 3 3 1 := by decide
    have mem : mnemonic ∈ mnemonics₁ ++ mnemonics₂ ++ mnemonics₃ := by
      rcases written.1 with ⟨mem, -⟩ | ⟨mem, -⟩ | ⟨mem, -⟩ <;> simp [mem]
    exact .alternative rfl rfl rfl (selected mnemonic mem)
      (.one (.once rfl rfl (.rule (by decide) (instruction_reads written.1))))

/-! ### Sections -/

theorem code_reads {lines : List Line} (written : ∀ line ∈ lines, line.Written) :
    RuleReads readGrammar 5 2 (mark ".code" :: lines.flatMap Line.tokens)
      (.node "code" none (some 0)
        (.ofToken (mark ".code") :: held true "line*" (lines.map (Line.item true)))) [] := by
  have ends : Along.refusesAfter readGrammar none 4 2 (.rule 3) := by decide
  have repeated : TermReads readGrammar 4 2 { symbol := .rule 3, multiplicity := .star }
      (lines.flatMap Line.tokens) (.node "line*" none none (lines.map (Line.item true))) [] :=
    .star rfl (fun line mem _ => .rule (by decide) (line_reads (written line mem)))
      (fun line _ => by cases line <;> exact List.cons_ne_nil _ _) ends
  have selected : Along.selects readGrammar (Text.quote ".code") 4 2 0 := by decide
  exact .alternative rfl rfl rfl selected (.cons word_reads (.one repeated))

theorem data_reads (constants : List String) :
    RuleReads readGrammar 5 1 (mark ".data" :: constants.map textToken)
      (.node "data" none (some 0)
        (.ofToken (mark ".data") :: held true "constant*" (constants.map constantTree)))
      (mark ".code" :: rest) := by
  have ends : Along.refusesAfter readGrammar (some (Text.quote ".code")) 4 1 (.rule 12) := by decide
  have repeated : TermReads readGrammar 4 1 { symbol := .rule 12, multiplicity := .star }
      (constants.flatMap fun c => [textToken c])
      (.node "constant*" none none (constants.map constantTree)) (mark ".code" :: rest) :=
    .star rfl (fun c _ _ => .rule (by decide) (.another rfl rfl (by decide)))
      (fun _ _ => List.cons_ne_nil _ _) ends
  rw [← List.map_eq_flatMap] at repeated
  have selected : Along.selects readGrammar (Text.quote ".data") 4 1 0 := by decide
  exact .alternative rfl rfl rfl selected (.cons word_reads (.one repeated))

end

namespace Listing

variable {l : Listing}

/-- **The tokens of a listing** have its tree. -/
theorem parseTokens_tokens (written : ∀ line ∈ l.lines, line.Written) :
    readGrammar.parseTokens l.tokens = .ok (l.tree true) := by
  have selected : Along.selects readGrammar (Text.quote ".data") 5 0 0 := by decide
  have data : TermReads readGrammar 5 0 { symbol := .rule 1, multiplicity := .optional }
      (mark ".data" :: l.constants.map textToken) _
      (mark ".code" :: l.lines.flatMap Line.tokens ++ []) :=
    .optional_some rfl (List.cons_ne_nil _ _) (.rule (by decide) (data_reads l.constants))
  have code : TermReads readGrammar 5 0 { symbol := .rule 2 }
      (mark ".code" :: l.lines.flatMap Line.tokens) _ [] :=
    .once rfl rfl (.rule (by decide) (code_reads written))
  have reads : RuleReads readGrammar 6 0 l.tokens (l.tree true) [] :=
    .alternative rfl rfl rfl selected (.cons data (.one code))
  exact Grammar.parseTokens_of_ruleReads reads

/-- **The source of a listing** is read, as its tree up to where the tokens stand. -/
theorem parse_source (written : ∀ line ∈ l.lines, line.Written) :
    ∃ t, language.parse l.source = .ok t ∧ t.unplaced = (l.tree true).unplaced := by
  obtain ⟨ts, cut, agree⟩ := tokenize_source written
  obtain ⟨t, parsed, same⟩ :=
    Grammar.parseTokens_agrees (forall₂_agrees_iff.1 agree) (parseTokens_tokens written)
  have known : language.grammar? = .ok readGrammar := grammar_eq
  have vocabulary : readGrammar.vocabulary = lexicon.vocabulary := rfl
  exact ⟨t, (Language.parse_eq_ok known vocabulary).2 ⟨ts, cut, parsed⟩, same.symm⟩

end Listing

end Polyglot.Assembly
