import Polyglot.Proofs.Language.Grammars
import Polyglot.Proofs.Tree.Shaking

/-!
# Trees of the assembly language

What the shaken trees of the language look like, spelled out: sections, items, operands.
Shaking takes out the trees of lines and of repetitions, so every item of a section is right
below the tree of the section (`isSource_shake`).
-/

namespace Polyglot.Assembly

open Shake

/-- Whether a tree is a token of a type. -/
def IsToken (type : String) (label : Option String) (t : Tree) : Prop :=
  ∃ token, t = .leaf type label none token ∧ token.type = type

/-- Whether a tree is a token with exactly one text. -/
def IsWord (text : String) (t : Tree) : Prop := IsToken (Text.quote text) none t

/-- Whether a tree is an operand. -/
inductive IsOperand : Tree → Prop
  /-- A name. -/
  | name {token : Token} : token.type = "identifier" →
      IsOperand (.node "operand" none (some 0) [.leaf "name" none (some "identifier") token])
  /-- A number, possibly with a minus sign before it. -/
  | integer {sign : List Tree} {digits : Tree} :
      sign.length ≤ 1 → (∀ t ∈ sign, IsWord "-" t) → IsToken "decimal_integer" none digits →
      IsOperand (.node "operand" none (some 1) [.node "integer" none (some 0) (sign ++ [digits])])
  /-- The number of a text. -/
  | constant {equals digits : Tree} :
      IsWord "=" equals → IsToken "decimal_integer" none digits →
      IsOperand (.node "operand" none (some 2) [.node "constant_ref" none (some 0) [equals, digits]])

/-- Whether an instruction has a number of operands. -/
def HasArity (mnemonic : String) (count : Nat) : Prop :=
  mnemonic ∈ mnemonics₁ ∧ count = 1 ∨ mnemonic ∈ mnemonics₂ ∧ count = 2
    ∨ mnemonic ∈ mnemonics₃ ∧ count = 3

/-- Whether a tree is a line of the code section. -/
inductive IsLine : Tree → Prop
  /-- A label. -/
  | label {name colon : Tree} : IsToken "identifier" (some "name") name → IsWord ":" colon →
      IsLine (.node "label" none (some 0) [name, colon])
  /-- An instruction. -/
  | instruction {op mnemonic : String} {index choice : Nat} {word : Tree} {operands : List Tree} :
      op ≠ "operand" → HasArity mnemonic operands.length → IsWord mnemonic word →
      (∀ t ∈ operands, IsOperand t) →
      IsLine (.node "instruction" none (some index)
        (.node op (some "op") (some choice) [word] :: operands))

/-- Whether a tree is a text of the data section. -/
def IsConstant (t : Tree) : Prop :=
  ∃ token, t = .leaf "constant" none (some "escaped_string") token ∧ token.type = "escaped_string"

/-- Whether a tree is a section with items of a kind. -/
def IsSection (name header : String) (isItem : Tree → Prop) (t : Tree) : Prop :=
  ∃ word items, t = .node name none (some 0) (word :: items) ∧ IsWord header word
    ∧ ∀ item ∈ items, isItem item

/-- Whether a tree is a source: possibly a section of texts, and a section of lines. -/
def IsSource (t : Tree) : Prop :=
  ∃ data code, t = .node "a" none (some 0) (data ++ [code]) ∧ data.length ≤ 1
    ∧ (∀ t ∈ data, IsSection "data" ".data" IsConstant t)
    ∧ IsSection "code" ".code" IsLine code

/-! ## Shaking -/

/-- If every tree of a list is shaken to one of a kind, so is the list. -/
theorem shakeList_of_forall {p : Tree → Prop} {ts : List Tree}
    (each : ∀ t ∈ ts, ∃ u, language.shaker.shakeInner t = [u] ∧ p u) :
    (language.shaker.shakeList ts).length = ts.length
      ∧ ∀ u ∈ language.shaker.shakeList ts, p u := by
  induction ts with
  | nil => exact ⟨rfl, nofun⟩
  | cons t ts ih =>
    obtain ⟨⟨u, eq, holds⟩, others⟩ := List.forall_mem_cons.1 each
    obtain ⟨length, all⟩ := ih others
    rw [shakeList, eq, List.singleton_append]
    exact ⟨congrArg (· + 1) length, List.forall_mem_cons.2 ⟨holds, all⟩⟩

variable {t : Tree}

/-- The tree of a term that asks for exactly one text. -/
theorem isWord_of_derives {text : String} (h : readGrammar.DerivesTerm (word text) t) :
    language.shaker.shakeInner t = [t] ∧ IsWord text t := by
  obtain ⟨derived, label⟩ := h.of_once rfl
  obtain ⟨token, eq, type⟩ := derived.of_terminal
  rw [eq, label]
  exact ⟨by rw [shakeInner], token, rfl, type⟩

theorem isToken_of_derives {type : String} {label : Option String}
    (h : readGrammar.DerivesTerm { symbol := .terminal type, label } t) :
    language.shaker.shakeInner t = [t] ∧ IsToken type label t := by
  obtain ⟨derived, label⟩ := h.of_once rfl
  obtain ⟨token, eq, type⟩ := derived.of_terminal
  rw [eq, label]
  exact ⟨by rw [shakeInner], token, rfl, type⟩

/-- The trees of numbers. -/
theorem isInteger_of_derives (h : readGrammar.DerivesTerm { symbol := .rule 10 } t) :
    ∃ sign digits, language.shaker.shakeInner t
        = [.node "integer" none (some 0) (sign ++ [digits])]
      ∧ sign.length ≤ 1 ∧ (∀ t ∈ sign, IsWord "-" t) ∧ IsToken "decimal_integer" none digits := by
  obtain ⟨derived, label⟩ := h.of_once rfl
  obtain ⟨index, terms, children, eq, among, children'⟩ := derived.of_choice rfl
  rw [label] at eq
  match index, among with
  | 0, among =>
    obtain rfl := Option.some.inj among
    obtain _ | ⟨signs, _ | ⟨number, _ | _⟩⟩ := children'
    obtain ⟨items, eq', few, derived, unlabeled⟩ := signs.of_often (by decide)
    obtain ⟨number', isNumber⟩ := isToken_of_derives number
    obtain ⟨length, words⟩ := shakeList_of_forall (p := IsWord "-") fun t mem =>
      ⟨t, isWord_of_derives (.once rfl (derived t mem) (unlabeled t mem))⟩
    refine ⟨language.shaker.shakeList items, _, ?_, length ▸ few, words, isNumber⟩
    have spliced : language.shaker.shakeInner (.node "\"-\"?" none none items)
        = language.shaker.shakeList items := shakeInner_spliced (by decide)
    rw [eq, shakeInner_kept (by decide) rfl, shakeList, shakeList, number', shakeList, eq']
    exact congrArg (fun ts => [Tree.node "integer" none (some 0) (ts ++ [_])]) spliced

/-- The trees of operands. -/
theorem isOperand_of_derives (h : readGrammar.DerivesTerm { symbol := .rule 9 } t) :
    ∃ u, language.shaker.shakeInner t = [u] ∧ IsOperand u := by
  obtain ⟨derived, label⟩ := h.of_once rfl
  obtain ⟨index, terms, children, eq, among, children'⟩ := derived.of_choice rfl
  rw [label] at eq
  rw [eq, shakeInner_kept (by decide) rfl]
  refine ⟨_, rfl, ?_⟩
  match index, among with
  | 0, among =>
    obtain rfl := Option.some.inj among
    obtain _ | ⟨inner, _ | _⟩ := children'
    obtain ⟨derived, label⟩ := inner.of_once rfl
    obtain ⟨token, eq, type⟩ := derived.of_alias rfl
    rw [eq, label, shakeList, shakeInner, shakeList]
    exact .name type
  | 1, among =>
    obtain rfl := Option.some.inj among
    obtain _ | ⟨inner, _ | _⟩ := children'
    obtain ⟨sign, digits, eq, few, minus, isNumber⟩ := isInteger_of_derives inner
    rw [shakeList, eq, shakeList]
    exact .integer few minus isNumber
  | 2, among =>
    obtain rfl := Option.some.inj among
    obtain _ | ⟨inner, _ | _⟩ := children'
    obtain ⟨derived, label⟩ := inner.of_once rfl
    obtain ⟨index, terms, children, eq, among, children'⟩ := derived.of_choice rfl
    rw [label] at eq
    match index, among with
    | 0, among =>
      obtain rfl := Option.some.inj among
      obtain _ | ⟨equals, _ | ⟨number, _ | _⟩⟩ := children'
      obtain ⟨equals', isEquals⟩ := isWord_of_derives equals
      obtain ⟨number', isNumber⟩ := isToken_of_derives number
      rw [eq, shakeList, shakeInner_kept (by decide) rfl, shakeList, shakeList, equals', shakeList,
        number', shakeList]
      exact .constant isEquals isNumber

/-- The trees of mnemonics. -/
theorem isMnemonic_of_derives (mnemonics : List String) {id : Nat} {op : String}
    (at_ : readGrammar.rules[id]? = some ⟨op, .choice (mnemonics.map fun m => [word m])⟩)
    (kept : language.shaker.isSpliced op = false)
    (h : readGrammar.DerivesTerm { symbol := .rule id, label := some "op" } t) :
    ∃ mnemonic choice word, language.shaker.shakeInner t
        = [.node op (some "op") (some choice) [word]]
      ∧ mnemonic ∈ mnemonics ∧ IsWord mnemonic word := by
  obtain ⟨derived, label⟩ := h.of_once rfl
  obtain ⟨index, terms, children, eq, among, children'⟩ := derived.of_choice at_
  rw [label] at eq
  rw [List.getElem?_map] at among
  obtain ⟨mnemonic, found, rfl⟩ := Option.map_eq_some_iff.1 among
  obtain _ | ⟨inner, _ | _⟩ := children'
  obtain ⟨inner', isWord⟩ := isWord_of_derives inner
  refine ⟨mnemonic, index, _, ?_, List.mem_of_getElem? found, isWord⟩
  rw [eq, shakeInner_kept kept rfl, shakeList, inner', shakeList]
  rfl

/-- The trees of instructions. -/
theorem isInstruction_of_derives (h : readGrammar.DerivesTerm { symbol := .rule 5 } t) :
    ∃ u, language.shaker.shakeInner t = [u] ∧ IsLine u := by
  obtain ⟨derived, label⟩ := h.of_once rfl
  obtain ⟨index, terms, children, eq, among, children'⟩ := derived.of_choice rfl
  rw [label] at eq
  rw [eq, shakeInner_kept (by decide) rfl]
  refine ⟨_, rfl, ?_⟩
  -- one alternative for each number of operands
  match index, among with
  | 0, among =>
    obtain rfl := Option.some.inj among
    obtain _ | ⟨op, _ | ⟨first, _ | _⟩⟩ := children'
    obtain ⟨mnemonic, choice, word, eq, known, isWord⟩ :=
      isMnemonic_of_derives mnemonics₁ rfl (by decide) op
    obtain ⟨x, eq₁, isOperand⟩ := isOperand_of_derives first
    rw [shakeList, eq, shakeList, eq₁, shakeList]
    exact .instruction (by decide) (.inl ⟨known, rfl⟩) isWord (by simpa using isOperand)
  | 1, among =>
    obtain rfl := Option.some.inj among
    obtain _ | ⟨op, _ | ⟨first, _ | ⟨second, _ | _⟩⟩⟩ := children'
    obtain ⟨mnemonic, choice, word, eq, known, isWord⟩ :=
      isMnemonic_of_derives mnemonics₂ rfl (by decide) op
    obtain ⟨x, eq₁, isOperand⟩ := isOperand_of_derives first
    obtain ⟨x', eq₂, isOperand'⟩ := isOperand_of_derives second
    rw [shakeList, eq, shakeList, eq₁, shakeList, eq₂, shakeList]
    exact .instruction (by decide) (.inr (.inl ⟨known, rfl⟩)) isWord
      (by simpa using ⟨isOperand, isOperand'⟩)
  | 2, among =>
    obtain rfl := Option.some.inj among
    obtain _ | ⟨op, _ | ⟨first, _ | ⟨second, _ | ⟨third, _ | _⟩⟩⟩⟩ := children'
    obtain ⟨mnemonic, choice, word, eq, known, isWord⟩ :=
      isMnemonic_of_derives mnemonics₃ rfl (by decide) op
    obtain ⟨x, eq₁, isOperand⟩ := isOperand_of_derives first
    obtain ⟨x', eq₂, isOperand'⟩ := isOperand_of_derives second
    obtain ⟨x'', eq₃, isOperand''⟩ := isOperand_of_derives third
    rw [shakeList, eq, shakeList, eq₁, shakeList, eq₂, shakeList, eq₃, shakeList]
    exact .instruction (by decide) (.inr (.inr ⟨known, rfl⟩)) isWord
      (by simpa using ⟨isOperand, isOperand', isOperand''⟩)

/-- The trees of lines. -/
theorem isLine_of_derives (h : readGrammar.DerivesTerm { symbol := .rule 3 } t) :
    ∃ u, language.shaker.shakeInner t = [u] ∧ IsLine u := by
  obtain ⟨derived, label⟩ := h.of_once rfl
  obtain ⟨index, terms, children, eq, among, children'⟩ := derived.of_choice rfl
  rw [label] at eq
  rw [eq, shakeInner_spliced (by decide)]
  match index, among with
  | 0, among =>
    obtain rfl := Option.some.inj among
    obtain _ | ⟨inner, _ | _⟩ := children'
    obtain ⟨derived, label⟩ := inner.of_once rfl
    obtain ⟨index, terms, children, eq, among, children'⟩ := derived.of_choice rfl
    rw [label] at eq
    match index, among with
    | 0, among =>
      obtain rfl := Option.some.inj among
      obtain _ | ⟨name, _ | ⟨colon, _ | _⟩⟩ := children'
      obtain ⟨name', isName⟩ := isToken_of_derives name
      obtain ⟨colon', isColon⟩ := isWord_of_derives colon
      refine ⟨_, ?_, .label isName isColon⟩
      rw [eq, shakeList, shakeInner_kept (by decide) rfl, shakeList, shakeList, name', shakeList,
        colon', shakeList]
      rfl
  | 1, among =>
    obtain rfl := Option.some.inj among
    obtain _ | ⟨inner, _ | _⟩ := children'
    obtain ⟨u, eq, isLine⟩ := isInstruction_of_derives inner
    exact ⟨u, by rw [shakeList, eq, shakeList, List.append_nil], isLine⟩

/-- The trees of texts. -/
theorem isConstant_of_derives (h : readGrammar.DerivesTerm { symbol := .rule 12 } t) :
    ∃ u, language.shaker.shakeInner t = [u] ∧ IsConstant u := by
  obtain ⟨derived, label⟩ := h.of_once rfl
  obtain ⟨token, eq, type⟩ := derived.of_alias rfl
  rw [eq, label]
  exact ⟨_, by rw [shakeInner], token, rfl, type⟩

/-- The trees of sections. -/
theorem isSection_of_derives {id itemId : Nat} {name header : String} {isItem : Tree → Prop}
    (at_ : readGrammar.rules[id]? = some ⟨name, .choice
      [[word header, { symbol := .rule itemId, multiplicity := .star }]]⟩)
    (kept : language.shaker.isSpliced name = false)
    (spliced : language.shaker.isSpliced (readGrammar.ruleName itemId ++ "*") = true)
    (items : ∀ {t}, readGrammar.DerivesTerm { symbol := .rule itemId } t →
      ∃ u, language.shaker.shakeInner t = [u] ∧ isItem u)
    (h : readGrammar.DerivesTerm { symbol := .rule id } t) :
    ∃ u, language.shaker.shakeInner t = [u] ∧ IsSection name header isItem u := by
  obtain ⟨derived, label⟩ := h.of_once rfl
  obtain ⟨index, terms, children, eq, among, children'⟩ := derived.of_choice at_
  rw [label] at eq
  match index, among with
  | 0, among =>
    obtain rfl := Option.some.inj among
    obtain _ | ⟨first, _ | ⟨others, _ | _⟩⟩ := children'
    obtain ⟨first', isHeader⟩ := isWord_of_derives first
    obtain ⟨ts, eq', -, derived, unlabeled⟩ := others.of_often nofun
    have each := (shakeList_of_forall fun t mem =>
      items (.once rfl (derived t mem) (unlabeled t mem))).2
    refine ⟨_, ?_, _, _, rfl, isHeader, each⟩
    rw [eq, shakeInner_kept kept rfl, shakeList, first', shakeList, eq', shakeList, List.append_nil]
    exact congrArg (fun ts => [Tree.node name none (some 0) ([_] ++ ts)])
      (shakeInner_spliced spliced)

/-- **What a source is shaken to.** -/
theorem isSource_shake (h : readGrammar.Derives (.rule 0) t) (label : t.label = none) :
    IsSource (language.shake t) := by
  obtain ⟨index, terms, children, eq, among, children'⟩ := h.of_choice rfl
  rw [label] at eq
  subst eq
  match index, among with
  | 0, among =>
    obtain rfl := Option.some.inj among
    obtain _ | ⟨datas, _ | ⟨code, _ | _⟩⟩ := children'
    obtain ⟨items, eq, few, derived, unlabeled⟩ := datas.of_often nofun
    obtain ⟨code', eqCode, isCode⟩ :=
      isSection_of_derives rfl (by decide) (by decide) isLine_of_derives code
    obtain ⟨length, isData⟩ := shakeList_of_forall fun t mem =>
      isSection_of_derives (t := t) rfl (by decide) (by decide) isConstant_of_derives
        (.once rfl (derived t mem) (unlabeled t mem))
    refine ⟨language.shaker.shakeList items, code', ?_, length ▸ few, isData, isCode⟩
    have spliced : language.shaker.shakeInner (.node "data?" none none items)
        = language.shaker.shakeList items := shakeInner_spliced (by decide)
    rw [Language.shake, shake, shakeList, shakeList, eqCode, shakeList, eq]
    exact congrArg (fun ts => Tree.node "a" none (some 0) (ts ++ [code'])) spliced

end Polyglot.Assembly
