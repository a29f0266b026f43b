import Polyglot.Proofs.Assembly.Trees
import Polyglot.Proofs.Assembly.WellFormed
import Polyglot.Proofs.Language.Legible
import Polyglot.Proofs.Parsing.Induction
import Polyglot.Proofs.Parsing.Parts

/-!
# Intact listings

An error is *formal* (`AssemblyError.isFormal`) if it is about what the grammar says already: that a
tree is no listing, that there is no such instruction, or that it takes another number of operands.
Other errors are about the kinds of operands, about labels and texts that are not there, and about
numbers that are too large.

A source of the language has a listing, whose lines take as many operands as they are given, and
so has the shaken tree of the source (`exists_listing`). So no error with it is formal
(`neverFormal_of_parse`).
-/

namespace Polyglot.Assembly

open Polyglot.Machine (Register)

/-- Whether an error is about what the grammar says already. -/
def AssemblyError.isFormal : AssemblyError → Bool
  | unknownInstruction .. | wrongArity .. | malformed .. => true
  | _ => false

/-! ## Assembling listings -/

/-- Whether a line is a label, or an instruction with as many operands as it takes. -/
def Line.Fits : Line → Prop
  | label .. => True
  | instruction mnemonic operands _ => (signature? mnemonic).map List.length = some operands.length

/-- Whether no error with something is formal. -/
def NeverFormal {α : Type} (x : Except AssemblyError α) : Prop :=
  ∀ e, x = .error e → e.isFormal = false

namespace NeverFormal

variable {α β : Type}

theorem ok {a : α} : NeverFormal (.ok a) := nofun

theorem pure {a : α} : NeverFormal (Pure.pure a) := nofun

theorem bind {x : Except AssemblyError α} {f : α → Except AssemblyError β} (first : NeverFormal x)
    (next : ∀ a, x = .ok a → NeverFormal (f a)) : NeverFormal (x >>= f) := by
  intro e failed
  rcases Except.bind_eq_error.1 failed with failed | ⟨a, done, failed⟩
  · exact first e failed
  · exact next a done e failed

theorem encoding {x : Except Machine.InstructionError α} {index : Nat} {span : Source.Span} :
    NeverFormal (x.mapError (.encoding index span)) := by
  intro e failed
  obtain ⟨_, _, _, rfl⟩ := isEncoding_of_word failed
  rfl

end NeverFormal

/-- Operands are of the kinds that were checked. -/
theorem accepts_of_checkKinds {mnemonic : String} {span : Source.Span} {position : Nat}
    {kinds : List Kind} {operands : List Operand} (length : kinds.length = operands.length)
    (checked : checkKinds mnemonic span position kinds operands = .ok ()) :
    List.Forall₂ (fun kind operand => kind.accepts operand) kinds operands := by
  induction kinds generalizing position operands with
  | nil =>
    cases operands with
    | nil => exact .nil
    | cons => cases length
  | cons kind kinds ih =>
    cases operands with
    | nil => cases length
    | cons operand operands =>
      rw [checkKinds] at checked
      split at checked
      · exact .cons ‹_› (ih (Nat.succ.inj length) checked)
      · cases checked

/-- An operand that is asked to be a register is one. -/
theorem exists_register {o : Operand} (accepted : Kind.accepts .register o) :
    ∃ r, o = .register r := by
  cases o with
  | register r => exact ⟨r, rfl⟩
  | label | int | constant => cases accepted

/-- An operand that is asked to be a number is one. -/
theorem exists_int {o : Operand} (accepted : Kind.accepts .immediate o) : ∃ n, o = .int n := by
  cases o with
  | int n => exact ⟨n, rfl⟩
  | label | register | constant => cases accepted

theorem exists_target {o : Operand} (accepted : Kind.accepts .target o) :
    ∃ t, Command.target? o = some t := by
  cases o with
  | label | int => exact ⟨_, rfl⟩
  | register | constant => cases accepted

theorem exists_source {o : Operand} (accepted : Kind.accepts .value o) :
    ∃ v, Command.source? o = some v := by
  cases o with
  | label | int | constant => exact ⟨_, rfl⟩
  | register => cases accepted

/-- What is checked as arithmetic is a command. -/
theorem isSome_of?_arithmetic {mnemonic : String} {operands : List Operand}
    (made : (Command.ofArithmetic? mnemonic operands).isSome) :
    (Command.of? mnemonic operands).isSome := by
  unfold Command.of?
  split
  case h_15 => exact made
  case h_3 | h_8 | h_10 => simp [Command.ofArithmetic?] at made
  all_goals rfl

/-- **What is checked is a command.** -/
theorem isSome_of? {mnemonic : String} {kinds : List Kind} {operands : List Operand}
    (known : signature? mnemonic = some kinds)
    (accepted : List.Forall₂ (fun kind operand => kind.accepts operand) kinds operands) :
    (Command.of? mnemonic operands).isSome := by
  rw [signature?] at known
  split at known
  · rename_i operation
    obtain rfl := Option.some.inj known
    obtain _ | ⟨first, _ | ⟨second, _ | ⟨third, _ | _⟩⟩⟩ := accepted
    obtain ⟨a, rfl⟩ := exists_register first
    obtain ⟨b, rfl⟩ := exists_register second
    obtain ⟨c, rfl⟩ := exists_register third
    refine isSome_of?_arithmetic ?_
    rw [Command.ofArithmetic?, Option.isSome_map]
    exact operation
  split at known
  · rename_i operation
    obtain rfl := Option.some.inj known
    obtain _ | ⟨first, _ | ⟨second, _ | ⟨third, _ | _⟩⟩⟩ := accepted
    obtain ⟨a, rfl⟩ := exists_register first
    obtain ⟨b, rfl⟩ := exists_register second
    obtain ⟨n, rfl⟩ := exists_int third
    refine isSome_of?_arithmetic ?_
    rw [Command.ofArithmetic?, Option.isSome_map]
    exact operation
  · obtain ⟨before, after, eq, -⟩ := List.lookup_eq_some_iff.1 known
    have mem : (mnemonic, kinds) ∈ signatures := by rw [eq]; simp
    simp only [signatures, List.mem_cons, List.not_mem_nil, or_false, Prod.mk.injEq] at mem
    rcases mem with ⟨rfl, rfl⟩ | ⟨rfl, rfl⟩ | ⟨rfl, rfl⟩ | ⟨rfl, rfl⟩ | ⟨rfl, rfl⟩ | ⟨rfl, rfl⟩
      | ⟨rfl, rfl⟩ | ⟨rfl, rfl⟩ | ⟨rfl, rfl⟩ | ⟨rfl, rfl⟩ | ⟨rfl, rfl⟩ | ⟨rfl, rfl⟩ | ⟨rfl, rfl⟩
      | ⟨rfl, rfl⟩
    -- instructions that take a register
    iterate 3
      · obtain _ | ⟨first, _ | _⟩ := accepted
        obtain ⟨r, rfl⟩ := exists_register first
        rfl
    · obtain _ | ⟨first, _ | _⟩ := accepted
      obtain ⟨target, read⟩ := exists_target first
      exact Option.isSome_map.trans (congrArg Option.isSome read)
    -- those that take a number
    iterate 2
      · obtain _ | ⟨first, _ | _⟩ := accepted
        obtain ⟨n, rfl⟩ := exists_int first
        rfl
    -- those that take two registers
    iterate 3
      · obtain _ | ⟨first, _ | ⟨second, _ | _⟩⟩ := accepted
        obtain ⟨a, rfl⟩ := exists_register first
        obtain ⟨b, rfl⟩ := exists_register second
        rfl
    · obtain _ | ⟨first, _ | ⟨second, _ | _⟩⟩ := accepted
      obtain ⟨a, rfl⟩ := exists_register first
      obtain ⟨value, read⟩ := exists_source second
      exact Option.isSome_map.trans (congrArg Option.isSome read)
    · obtain _ | ⟨first, _ | ⟨second, _ | _⟩⟩ := accepted
      obtain ⟨target, read⟩ := exists_target first
      obtain ⟨b, rfl⟩ := exists_register second
      exact Option.isSome_map.trans (congrArg Option.isSome read)
    -- those that take a place in memory
    iterate 2
      · obtain _ | ⟨first, _ | ⟨second, _ | ⟨third, _ | _⟩⟩⟩ := accepted
        obtain ⟨a, rfl⟩ := exists_register first
        obtain ⟨b, rfl⟩ := exists_register second
        obtain ⟨n, rfl⟩ := exists_int third
        rfl
    · obtain _ | ⟨first, _ | ⟨second, _ | ⟨third, _ | _⟩⟩⟩ := accepted
      obtain ⟨value, rfl⟩ := exists_int first
      obtain ⟨b, rfl⟩ := exists_register second
      obtain ⟨n, rfl⟩ := exists_int third
      rfl

/-- A line that fits is no formal error. -/
theorem neverFormal_ofLine {mnemonic : String} {operands : List Operand} {span : Source.Span}
    (fits : (Line.instruction mnemonic operands span).Fits) :
    NeverFormal (Command.ofLine mnemonic operands span) := by
  obtain ⟨kinds, known, length⟩ := Option.map_eq_some_iff.1 fits
  have same : check mnemonic operands span = checkKinds mnemonic span 1 kinds operands := by
    rw [check, known]
    exact if_neg (not_not_intro length)
  have kindly (position : Nat) (kinds : List Kind) (operands : List Operand) :
      NeverFormal (checkKinds mnemonic span position kinds operands) := by
    fun_induction checkKinds mnemonic span position kinds operands with
    | case1 position kind kinds operand operands accepted ih => exact ih
    | case2 position kind kinds operand operands refused =>
      intro e failed
      obtain rfl := Except.error.inj failed
      rfl
    | case3 => exact .ok
  rw [Command.ofLine]
  refine .bind (same ▸ kindly 1 kinds operands) fun _ checked => ?_
  obtain ⟨command, made⟩ := Option.isSome_iff_exists.1
    (isSome_of? known (accepts_of_checkKinds length (same ▸ checked)))
  rw [made]
  exact .pure

/-- The first pass finds no formal error in lines that fit. -/
theorem neverFormal_outlineFrom {lines : List Line} (fit : ∀ line ∈ lines, line.Fits)
    (labels : List (String × Nat)) (site : Nat) : NeverFormal (outlineFrom labels site lines) := by
  induction lines generalizing labels site with
  | nil => exact .ok
  | cons line lines ih =>
    obtain ⟨first, others⟩ := List.forall_mem_cons.1 fit
    cases line with
    | label name span =>
      rw [outlineFrom]
      split
      · intro e failed
        obtain rfl := Except.error.inj failed
        rfl
      · exact ih others _ _
    | instruction mnemonic operands span =>
      rw [outlineFrom]
      exact .bind (neverFormal_ofLine first) fun _ _ => .bind (ih others _ _) fun _ _ => .pure

/-- Lowering finds no formal error. -/
theorem neverFormal_lower (s : Scope) (site : Nat) (span : Source.Span) (c : Command) :
    NeverFormal (s.lower site span c) := by
  have offset (name : String) : NeverFormal (s.labelOffset name site span) := by
    rw [Scope.labelOffset]
    split
    · exact .ok
    · intro e failed
      obtain rfl := Except.error.inj failed
      rfl
  have text (index : Nat) : NeverFormal (s.constantOffset index site span) := by
    rw [Scope.constantOffset]
    split
    · exact .ok
    · intro e failed
      obtain rfl := Except.error.inj failed
      rfl
  cases c with
  | compute | isZero | copy | jump | jumpIf | sys | exit => exact .ok
  | computeWith | load | store | sysOf | exitWith => exact .bind .encoding fun _ _ => .pure
  | storeInt => exact .bind .encoding fun _ _ => .bind .encoding fun _ _ => .pure
  | put dst source =>
    cases source with
    | int => exact .bind .encoding fun _ _ => .pure
    | label name => exact .bind (offset name) fun _ _ => .bind .encoding fun _ _ => .pure
    | constant index => exact .bind (text index) fun _ _ => .bind .encoding fun _ _ => .pure
  | jumpTo target | jumpToIf target =>
    refine .bind ?_ fun _ _ => .pure
    cases target with
    | label name => exact .bind (offset name) fun _ _ => .encoding
    | offset => exact .encoding

/-- The second pass finds no formal error. -/
theorem neverFormal_generateFrom (s : Scope) (site : Nat) (ps : List Placed) :
    NeverFormal (generateFrom s site ps) := by
  have encode (span : Source.Span) (site : Nat) (is : List Machine.Instruction) :
      NeverFormal (encodeFrom span site is) := by
    induction is generalizing site with
    | nil => exact .ok
    | cons i is ih => exact .bind .encoding fun _ _ => .bind (ih _) fun _ _ => .pure
  induction ps generalizing site with
  | nil => exact .ok
  | cons p ps ih =>
    exact .bind (neverFormal_lower s site p.span p.command) fun _ _ =>
      .bind (encode _ _ _) fun _ _ => .bind (ih _) fun _ _ => .pure

/-- **Assembling a listing** is no formal error if its lines fit. -/
theorem neverFormal_assemble {l : Listing} (fit : ∀ line ∈ l.lines, line.Fits) :
    NeverFormal l.assemble :=
  .bind (neverFormal_outlineFrom fit [] 0) fun _ _ =>
    .bind (neverFormal_generateFrom _ _ _) fun _ _ => .pure

/-! ## Collecting the items of a source -/

/-- Whether an item is a text, or a line that fits. -/
def Item.Fits : Item → Prop
  | constant _ => True
  | line l => l.Fits

/-- Whether a tree has items, all of which fit. -/
def Collects (t : Tree) : Prop := ∃ items, collect t = .ok items ∧ ∀ item ∈ items, item.Fits

/-- The names of the trees that stand for items. -/
def itemNames : List String := ["constant", "label", "instruction"]

theorem itemOf?_eq_none {t : Tree} (other : t.name ∉ itemNames) : itemOf? t = none := by
  simp only [itemNames, List.mem_cons, List.not_mem_nil, or_false, not_or] at other
  obtain ⟨constant, label, instruction⟩ := other
  simp [itemOf?, constant, label, instruction]

theorem collects_of_itemOf? {t : Tree} {item : Item} (is : itemOf? t = some (.ok item))
    (fits : item.Fits) : Collects t := by
  refine ⟨[item], ?_, List.forall_mem_singleton.2 fits⟩
  cases t with
  | leaf | node => rw [collect, is]; rfl

theorem collects_leaf {name : String} {label terminal : Option String} {token : Token}
    (other : name ∉ itemNames) : Collects (.leaf name label terminal token) := by
  have none : itemOf? (.leaf name label terminal token) = .none := itemOf?_eq_none other
  exact ⟨[], by rw [collect, none], List.forall_mem_nil _⟩

theorem collects_node {name : String} {label : Option String} {choice : Option Nat}
    {children : List Tree} (other : name ∉ itemNames) (each : ∀ t ∈ children, Collects t) :
    Collects (.node name label choice children) := by
  have all : ∃ items, collectList children = .ok items ∧ ∀ item ∈ items, item.Fits := by
    induction children with
    | nil => exact ⟨[], by rw [collectList], List.forall_mem_nil _⟩
    | cons t ts ih =>
      obtain ⟨⟨items, eq, fit⟩, others⟩ := List.forall_mem_cons.1 each
      obtain ⟨more, eq', fit'⟩ := ih others
      exact ⟨items ++ more, by rw [collectList, eq, eq']; rfl, List.forall_mem_append.2 ⟨fit, fit'⟩⟩
  obtain ⟨items, eq, fit⟩ := all
  have none : itemOf? (.node name label choice children) = .none := itemOf?_eq_none other
  exact ⟨items, by rw [collect, none]; exact eq, fit⟩

/-- Trees with items that fit have a listing with lines that fit. -/
theorem exists_listing_of_collects {t : Tree} (collects : Collects t) :
    ∃ l, Listing.ofTree t = .ok l ∧ ∀ line ∈ l.lines, line.Fits := by
  obtain ⟨items, eq, fit⟩ := collects
  refine ⟨_, by rw [Listing.ofTree, eq]; rfl, fun line mem => ?_⟩
  obtain ⟨item, inside, is⟩ := List.mem_filterMap.1 mem
  cases item with
  | constant => cases is
  | line l =>
    obtain rfl := Option.some.inj is
    exact fit _ inside

/-! ### Operands -/

/-- Whether a number stands right below a tree. -/
def HasNumber (t : Tree) : Prop :=
  ∃ name label terminal token, Tree.leaf name label terminal token ∈ t.children ∧ token.int?.isSome

theorem HasNumber.integerOf {t : Tree} (h : HasNumber t) : ∃ n, integerOf t = .ok n := by
  obtain ⟨name, label, terminal, token, mem, value⟩ := h
  have inside : token ∈ t.tokens := by
    cases t with
    | leaf => cases mem
    | node =>
      rw [Tree.tokens_node]
      exact List.mem_flatMap.2 ⟨_, mem, by simp⟩
  obtain ⟨n, found⟩ := Option.isSome_iff_exists.1 (List.findSome?_isSome_iff.2 ⟨token, inside, value⟩)
  exact ⟨n, by rw [Assembly.integerOf, found]⟩

/-- Whether a tree may be what an operand is made of. -/
def IsInner (t : Tree) : Prop :=
  t.name = "name" ∨ (t.name = "integer" ∨ t.name = "constant_ref") ∧ HasNumber t

/-- Whether a tree is read as an operand. -/
def IsGiven (t : Tree) : Prop := t.name = "operand" ∧ ∃ o, operandOf t = .ok o

theorem isGiven_of_isInner {label : Option String} {choice : Option Nat} {t : Tree} (inner : IsInner t) :
    IsGiven (.node "operand" label choice [t]) := by
  refine ⟨rfl, ?_⟩
  have first : (Tree.node "operand" label choice [t]).children.head? = some t := rfl
  rw [operandOf, first]
  rcases inner with name | ⟨name | name, number⟩
  · simp [name]
  · obtain ⟨n, eq⟩ := number.integerOf
    simp [name, eq, bind, Except.bind, pure, Except.pure]
  · obtain ⟨n, eq⟩ := number.integerOf
    simp [name, eq, bind, Except.bind, pure, Except.pure]

/-- Whether a tree is the mnemonic of an instruction with a number of operands. -/
def IsMnemonic (count : Nat) (t : Tree) : Prop :=
  t.name ≠ "operand" ∧ t.label = some "op" ∧ ∃ token, t.tokens = [token]
    ∧ token.lexeme.isEmpty = false ∧ (signature? token.lexeme).map List.length = some count

/-- The tree of an instruction is read as a line that fits. -/
theorem collects_instruction {label : Option String} {choice : Option Nat} {op : Tree}
    {operands : List Tree} (mnemonic : IsMnemonic operands.length op)
    (given : ∀ t ∈ operands, IsGiven t) :
    Collects (.node "instruction" label choice (op :: operands)) := by
  obtain ⟨noOperand, labeled, token, only, solid, arity⟩ := mnemonic
  have all : operands.filter (·.name == "operand") = operands :=
    List.filter_eq_self.2 fun t mem => beq_iff_eq.2 (given t mem).1
  have list : (op :: operands).filter (·.name == "operand") = operands := by
    rw [List.filter_cons_of_neg (by simpa using noOperand), all]
  have read : ∃ os : List Operand, operands.mapM operandOf = .ok os ∧ os.length = operands.length := by
    clear arity all list
    induction operands with
    | nil => exact ⟨[], rfl, rfl⟩
    | cons t ts ih =>
      obtain ⟨⟨-, o, eq⟩, others⟩ := List.forall_mem_cons.1 given
      obtain ⟨os, eq', length⟩ := ih others
      exact ⟨o :: os, by rw [List.mapM_cons, eq, eq']; rfl, congrArg (· + 1) length⟩
  obtain ⟨os, read, length⟩ := read
  have found : (Tree.node "instruction" label choice (op :: operands)).labeled? "op" = some op := by
    rw [Tree.labeled?, Tree.children, List.find?_cons_of_pos (by rw [labeled]; rfl)]
  have text : op.text = token.lexeme := Tree.text_of_tokens only solid
  generalize whole : Tree.node "instruction" label choice (op :: operands) = t at found
  have name : t.name = "instruction" := whole ▸ rfl
  have children : t.children = op :: operands := whole ▸ rfl
  have line : instructionOf t = .ok (.instruction token.lexeme os t.span) := by
    rw [instructionOf, children, list, read, found, ← text]
    rfl
  have is : itemOf? t = some (.ok (.line (.instruction token.lexeme os t.span))) := by
    simp [itemOf?, name, line, Except.map]
  exact collects_of_itemOf? is (arity.trans (congrArg some length.symm))

/-! ## The trees of sources, raw and shaken -/

/-- Whether a tree is of a kind, and what shaking leaves of it is, too. -/
def Both (p : Tree → Prop) (t : Tree) : Prop := p t ∧ ∃ u, language.shaker.shakeInner t = [u] ∧ p u

/-- Whether a tree has items that fit, and what shaking leaves of it has, too. -/
def Lists (t : Tree) : Prop := Collects t ∧ ∀ u ∈ language.shaker.shakeInner t, Collects u

/-- What is known of the trees of a symbol, with the labels that they have. -/
def Known : Symbol → Tree → Prop
  | .terminal type, t => ∃ token, t = .leaf type t.label none token ∧ token.IsSound ∧ token.type = type
  | .rule 6, t => t.label = some "op" → Both (IsMnemonic 1) t
  | .rule 7, t => t.label = some "op" → Both (IsMnemonic 2) t
  | .rule 8, t => t.label = some "op" → Both (IsMnemonic 3) t
  | .rule 9, t => t.label = none → Both IsGiven t
  | .rule 10, t | .rule 11, t | .rule 13, t => t.label = none → Both IsInner t
  | .rule _, t => t.label = none → Lists t

theorem mem_shakeList {s : Shake} {ts : List Tree} {u : Tree} (mem : u ∈ s.shakeList ts) :
    ∃ t ∈ ts, u ∈ s.shakeInner t := by
  induction ts with
  | nil =>
    rw [Shake.shakeList] at mem
    cases mem
  | cons t ts ih =>
    rw [Shake.shakeList, List.mem_append] at mem
    rcases mem with mem | mem
    · exact ⟨t, List.mem_cons_self, mem⟩
    · obtain ⟨t', mem', inside⟩ := ih mem
      exact ⟨t', List.mem_cons_of_mem _ mem', inside⟩

section

variable {t : Tree} {name : String} {choice : Option Nat} {index : Nat} {children : List Tree}

/-- A tree that is no item itself has those of the trees below it. -/
theorem lists_node (other : name ∉ itemNames) (each : ∀ t ∈ children, Lists t) :
    Lists (.node name none choice children) := by
  have below : ∀ u ∈ language.shaker.shakeList children, Collects u := by
    intro u mem
    obtain ⟨t, mem, inside⟩ := mem_shakeList mem
    exact (each t mem).2 u inside
  refine ⟨collects_node other fun t mem => (each t mem).1, fun u mem => ?_⟩
  cases spliced : language.shaker.isSpliced name with
  | true =>
    rw [Shake.shakeInner_spliced spliced] at mem
    exact below u mem
  | false =>
    rw [Shake.shakeInner_kept spliced rfl, List.mem_singleton] at mem
    rw [mem]
    exact collects_node other below

/-- The tree of a term yields what those of its symbol do. -/
theorem lists_term {term : Term} (h : readGrammar.TermHas Known term t) (unlabeled : term.label = none)
    (each : ∀ t, Known term.symbol t → t.label = none → Lists t) : Lists t := by
  cases h with
  | once _ known label => exact each t known (label.trans unlabeled)
  | often many _ known unlabeled' =>
    have other : ∀ name ∈ itemNames, isGenerated name = false := by decide
    rw [unlabeled]
    refine lists_node (fun mem => ?_) fun t mem => each t (known t mem) (unlabeled' t mem)
    exact absurd (isGenerated_suffix many _) (by rw [other _ mem]; decide)

/-- A token that is asked for by its text. -/
theorem known_word {text : String} (h : readGrammar.TermHas Known (word text) t) :
    ∃ token, t = .leaf (Text.quote text) none none token ∧ token.lexeme = text := by
  obtain ⟨⟨token, eq, sound, type⟩, label⟩ := h.of_once rfl
  exact ⟨token, by rw [eq, label]; rfl, sound.exact text type⟩

theorem lists_word {text : String} (h : readGrammar.TermHas Known (word text) t) : Lists t := by
  obtain ⟨token, rfl, -⟩ := known_word h
  have other : Text.quote text ∉ itemNames := by
    have noQuote : ∀ name ∈ itemNames, name.toList.head? ≠ some '"' := by decide
    exact fun mem => Lexicon.quote_ne (noQuote _ mem) rfl
  refine ⟨collects_leaf other, fun u mem => ?_⟩
  rw [Shake.shakeInner, List.mem_singleton] at mem
  rw [mem]
  exact collects_leaf other

/-! ### Instructions -/

/-- The mnemonic of an instruction. -/
theorem both_isMnemonic (mnemonics : List String) {count : Nat} {terms : List Term}
    (kept : language.shaker.isSpliced name = false) (noOperand : name ≠ "operand")
    (known : ∀ m ∈ mnemonics, m.isEmpty = false ∧ (signature? m).map List.length = some count)
    (among : (mnemonics.map fun m => [word m])[index]? = some terms)
    (h : List.Forall₂ (readGrammar.TermHas Known) terms children) :
    Both (IsMnemonic count) (.node name (some "op") (some index) children) := by
  rw [List.getElem?_map, Option.map_eq_some_iff] at among
  obtain ⟨m, at_, rfl⟩ := among
  obtain _ | ⟨leaf, _ | _⟩ := h
  obtain ⟨token, rfl, lexeme⟩ := known_word leaf
  obtain ⟨solid, arity⟩ := known m (List.mem_of_getElem? at_)
  have is : IsMnemonic count (.node name (some "op") (some index)
      [.leaf (Text.quote m) none none token]) :=
    ⟨noOperand, rfl, token, by simp, lexeme ▸ solid, lexeme ▸ arity⟩
  refine ⟨is, _, Shake.shakeInner_kept kept rfl, ?_⟩
  rw [Shake.shakeList, Shake.shakeInner, Shake.shakeList]
  exact is

/-- The tree of an instruction yields a line. -/
theorem lists_instruction {op : Tree} {operands : List Tree}
    (mnemonic : Both (IsMnemonic operands.length) op) (given : ∀ t ∈ operands, Both IsGiven t) :
    Lists (.node "instruction" none choice (op :: operands)) := by
  obtain ⟨mnemonic, op', eq, mnemonic'⟩ := mnemonic
  obtain ⟨length, given'⟩ := shakeList_of_forall fun t mem => (given t mem).2
  refine ⟨collects_instruction mnemonic fun t mem => (given t mem).1, ?_⟩
  rw [Shake.shakeInner_kept (by decide) rfl, Shake.shakeList, eq]
  refine List.forall_mem_singleton.2 ?_
  exact collects_instruction (length ▸ mnemonic') given'

/-- The trees of the operands that an alternative asks for. -/
theorem given_of_terms {terms : List Term} {operands : List Tree}
    (operand : ∀ term ∈ terms, term = { symbol := .rule 9 })
    (h : List.Forall₂ (readGrammar.TermHas Known) terms operands) :
    terms.length = operands.length ∧ ∀ t ∈ operands, Both IsGiven t := by
  induction h with
  | nil => exact ⟨rfl, List.forall_mem_nil _⟩
  | cons first _ ih =>
    obtain ⟨rfl, others⟩ := List.forall_mem_cons.1 operand
    obtain ⟨length, each⟩ := ih others
    obtain ⟨known, label⟩ := first.of_once rfl
    exact ⟨congrArg (· + 1) length, List.forall_mem_cons.2 ⟨known label, each⟩⟩

/-- What is known of an instruction. -/
theorem known_instruction {terms : List Term}
    (among : [[{ symbol := .rule 6, label := some "op" }, { symbol := .rule 9 }],
     [{ symbol := .rule 7, label := some "op" }, { symbol := .rule 9 }, { symbol := .rule 9 }],
     [{ symbol := .rule 8, label := some "op" }, { symbol := .rule 9 }, { symbol := .rule 9 },
      { symbol := .rule 9 }]][index]? = some terms)
    (h : List.Forall₂ (readGrammar.TermHas Known) terms children) :
    Lists (.node "instruction" none (some index) children) := by
  match index, among with
  | 0, among | 1, among | 2, among =>
    obtain rfl := Option.some.inj among
    obtain _ | ⟨op, others⟩ := h
    obtain ⟨mnemonic, label⟩ := op.of_once rfl
    obtain ⟨length, given⟩ := given_of_terms (by simp) others
    exact lists_instruction (length ▸ mnemonic label) given

/-! ### Operands -/

/-- A leaf stays. -/
theorem leaf_mem_shakeList {s : Shake} {ts : List Tree} {label terminal : Option String} {token : Token}
    (mem : .leaf name label terminal token ∈ ts) : .leaf name label terminal token ∈ s.shakeList ts := by
  induction ts with
  | nil => cases mem
  | cons t ts ih =>
    rw [Shake.shakeList, List.mem_append]
    rcases List.mem_cons.1 mem with rfl | mem
    · rw [Shake.shakeInner]
      exact .inl (List.mem_singleton_self _)
    · exact .inr (ih mem)

/-- What has a number below it may be an operand, raw and shaken. -/
theorem both_isInner (kept : language.shaker.isSpliced name = false)
    (names : name = "integer" ∨ name = "constant_ref") {label : Option String} {leaf : Tree}
    (h : readGrammar.TermHas Known { symbol := .terminal "decimal_integer" } leaf)
    (mem : leaf ∈ children) : Both IsInner (.node name label choice children) := by
  obtain ⟨⟨token, eq, sound, type⟩, -⟩ := h.of_once rfl
  rw [eq] at mem
  have value := sound.number type
  exact ⟨.inr ⟨names, _, _, _, _, mem, value⟩, _, Shake.shakeInner_kept kept rfl,
    .inr ⟨names, _, _, _, _, leaf_mem_shakeList mem, value⟩⟩

/-- The tree of an operand is read as one, raw and shaken. -/
theorem both_isGiven {terms : List Term}
    (among : [[{ symbol := .rule 13 }], [{ symbol := .rule 10 }], [{ symbol := .rule 11 }]][index]?
      = some terms)
    (h : List.Forall₂ (readGrammar.TermHas Known) terms children) :
    Both IsGiven (.node "operand" none (some index) children) := by
  have made {inner : Tree} (both : Both IsInner inner) :
      Both IsGiven (.node "operand" none (some index) [inner]) := by
    obtain ⟨is, u, eq, is'⟩ := both
    refine ⟨isGiven_of_isInner is, _, Shake.shakeInner_kept (by decide) rfl, ?_⟩
    rw [Shake.shakeList, eq, Shake.shakeList]
    exact isGiven_of_isInner is'
  match index, among with
  | 0, among | 1, among | 2, among =>
    obtain rfl := Option.some.inj among
    obtain _ | ⟨inner, _ | _⟩ := h
    obtain ⟨known, label⟩ := inner.of_once rfl
    exact made (known label)

end

/-! ### All rules -/

/-- What is known of the tree of an alternative. -/
theorem known_of_choice {id : Nat} {name : String} {alternatives : List (List Term)} {index : Nat}
    {terms : List Term} {label : Option String} {children : List Tree}
    (found : readGrammar.rules[id]? = some ⟨name, .choice alternatives⟩)
    (among : alternatives[index]? = some terms)
    (h : List.Forall₂ (readGrammar.TermHas Known) terms children) :
    Known (.rule id) (.node name label (some index) children) := by
  match id, found with
  | 0, found =>
    obtain ⟨rfl, rfl, rfl⟩ := Grammar.only_inj found among
    rintro rfl
    obtain _ | ⟨data, _ | ⟨code, _ | _⟩⟩ := h
    refine lists_node (by decide) (List.forall_mem_cons.2 ⟨?_, List.forall_mem_singleton.2 ?_⟩)
    · exact lists_term data rfl fun _ known => known
    · exact lists_term code rfl fun _ known => known
  | 1, found | 2, found =>
    obtain ⟨rfl, rfl, rfl⟩ := Grammar.only_inj found among
    rintro rfl
    obtain _ | ⟨header, _ | ⟨items, _ | _⟩⟩ := h
    refine lists_node (by decide) (List.forall_mem_cons.2 ⟨?_, List.forall_mem_singleton.2 ?_⟩)
    · exact lists_word header
    · exact lists_term items rfl fun _ known => known
  | 3, found =>
    obtain ⟨rfl, rfl⟩ := Grammar.choice_inj found
    rintro rfl
    match index, among with
    | 0, among | 1, among =>
      obtain rfl := Option.some.inj among
      obtain _ | ⟨item, _ | _⟩ := h
      exact lists_node (by decide)
        (List.forall_mem_singleton.2 (lists_term item rfl fun _ known => known))
  | 4, found =>
    obtain ⟨rfl, rfl, rfl⟩ := Grammar.only_inj found among
    rintro rfl
    have item (children : List Tree) : Collects (.node "label" none (some 0) children) :=
      collects_of_itemOf? rfl trivial
    refine ⟨item _, ?_⟩
    rw [Shake.shakeInner_kept (by decide) rfl]
    exact List.forall_mem_singleton.2 (item _)
  | 5, found =>
    obtain ⟨rfl, rfl⟩ := Grammar.choice_inj found
    rintro rfl
    exact known_instruction among h
  | 6, found =>
    obtain ⟨rfl, rfl⟩ := Grammar.choice_inj found
    rintro rfl
    exact both_isMnemonic mnemonics₁ (by decide) (by decide) (by decide) among h
  | 7, found =>
    obtain ⟨rfl, rfl⟩ := Grammar.choice_inj found
    rintro rfl
    exact both_isMnemonic mnemonics₂ (by decide) (by decide) (by decide) among h
  | 8, found =>
    obtain ⟨rfl, rfl⟩ := Grammar.choice_inj found
    rintro rfl
    exact both_isMnemonic mnemonics₃ (by decide) (by decide) (by decide) among h
  | 9, found =>
    obtain ⟨rfl, rfl⟩ := Grammar.choice_inj found
    rintro rfl
    exact both_isGiven among h
  | 10, found =>
    obtain ⟨rfl, rfl, rfl⟩ := Grammar.only_inj found among
    rintro rfl
    obtain _ | ⟨_, _ | ⟨digits, _ | _⟩⟩ := h
    exact both_isInner (by decide) (.inl rfl) digits (by simp)
  | 11, found =>
    obtain ⟨rfl, rfl, rfl⟩ := Grammar.only_inj found among
    rintro rfl
    obtain _ | ⟨_, _ | ⟨digits, _ | _⟩⟩ := h
    exact both_isInner (by decide) (.inr rfl) digits (by simp)
  -- an alias has no alternatives
  | 12, found | 13, found => cases found

/-- What is known of a token by another name. -/
theorem known_of_alias {id : Nat} {name type : String} {label : Option String} {token : Token}
    (found : readGrammar.rules[id]? = some ⟨name, .aliasOf type⟩) (is : token.type = type)
    (sound : token.IsSound) : Known (.rule id) (.leaf name label (some type) token) := by
  match id, found with
  | 0, found | 1, found | 2, found | 3, found | 4, found | 5, found | 6, found | 7, found | 8, found
  | 9, found | 10, found | 11, found => cases found
  | 12, found =>
    obtain ⟨rfl, rfl⟩ := Grammar.alias_inj found
    rintro rfl
    obtain ⟨text, value⟩ := Option.isSome_iff_exists.1 (sound.text is)
    have item : Collects (.leaf "constant" none (some "escaped_string") token) := by
      have is : itemOf? (.leaf "constant" none (some "escaped_string") token)
          = some (.ok (.constant text)) := by
        simp [itemOf?, Tree.name, Tree.token?, value]
      exact collects_of_itemOf? is trivial
    refine ⟨item, ?_⟩
    rw [Shake.shakeInner]
    exact List.forall_mem_singleton.2 item
  | 13, found =>
    obtain ⟨rfl, rfl⟩ := Grammar.alias_inj found
    rintro rfl
    exact ⟨.inl rfl, _, by rw [Shake.shakeInner], .inl rfl⟩

/-- **What is known of a tree** of a symbol, if its tokens are sound. -/
theorem known_of_derives {s : Symbol} {t : Tree} (derived : readGrammar.Derives s t)
    (sound : ∀ token ∈ t.tokens, token.IsSound) : Known s t := by
  refine derived.induct ?terminal ?another ?choice sound
  case terminal =>
    intro type label token is sound
    exact ⟨token, rfl, sound, is⟩
  case another =>
    intro id name type label token found is sound
    exact known_of_alias found is sound
  case choice =>
    intro id name alternatives index terms label children found among h
    exact known_of_choice found among h

/-- **The tree of a source is a listing**, raw and shaken, and every line of it has as many operands
as its instruction takes, if the tokens of the source are legible. -/
theorem exists_listing {source : String} {t u : Tree} (parsed : language.parse source = .ok t)
    (legible : language.Legible source) (either : u = t ∨ u = language.shake t) :
    ∃ l, Listing.ofTree u = .ok l ∧ ∀ line ∈ l.lines, line.Fits := by
  have grammar : language.grammar? = .ok readGrammar := grammar_eq
  have vocabulary : readGrammar.vocabulary = lexicon.vocabulary := rfl
  obtain ⟨derived, unlabeled, sound⟩ := Language.isSound_of_parse grammar vocabulary parsed legible
  obtain ⟨raw, shaken⟩ : Lists t := known_of_derives derived sound unlabeled
  refine exists_listing_of_collects ?_
  rcases either with rfl | rfl
  · exact raw
  · refine shaken _ ?_
    obtain ⟨children, node, -⟩ := derived.of_only rfl
    rw [node, Shake.shakeInner_kept (by decide) rfl]
    exact List.mem_singleton_self _

/-- **No error with a source is formal**, raw or shaken. -/
theorem neverFormal_of_parse {source : String} {t u : Tree} (parsed : language.parse source = .ok t)
    (legible : language.Legible source) (either : u = t ∨ u = language.shake t) :
    NeverFormal (assemble u) := by
  obtain ⟨l, listed, fit⟩ := exists_listing parsed legible either
  rw [assemble, listed]
  exact neverFormal_assemble fit

end Polyglot.Assembly
