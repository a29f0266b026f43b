import Polyglot.Proofs.Assembly.Intact

/-!
# Raw and shaken listings

A listing is read off a tree by looking for its items wherever they are, so it does not matter to it
how deep they stand. What does matter is what an item looks like: which of its trees are operands,
which one has the label of the mnemonic, and what an operand starts with.

Shaking takes out the trees of lines and of repetitions. No item is one of them, and of the trees
that make up an item only the one of an optional minus sign is. So what is known of a tree is
whether it stays and is read alike (`Known`), by induction on how the grammar derives it, and what
comes of it is that **a source assembles alike from its raw tree and from its shaken one**
(`assemble_shake`): the same listing with the same ranges, or the same error, and the same program.

There is one place where the level matters. An integer is negative if it starts with a minus sign or if the
first tree below it does, and when no sign is there the digits come first in the shaken
tree. They are no minus sign for what the lexicon cuts out as digits.
-/

namespace Polyglot

namespace Shake

variable {s : Shake} {t : Tree}

/-- Whether a tree stays where it is when the tree above it is shaken. -/
def Stays (s : Shake) (t : Tree) : Prop := s.shakeInner t = [s.shake t]

theorem stays_leaf (name : String) (label terminal : Option String) (token : Token) :
    s.Stays (.leaf name label terminal token) := by
  rw [Stays, shakeInner, shake]

theorem stays_node {name : String} (kept : s.isSpliced name = false) (label : Option String)
    (choice : Option Nat) (children : List Tree) : s.Stays (.node name label choice children) := by
  rw [Stays, shakeInner, shake]
  simp only [kept, Bool.false_eq_true, ↓reduceIte]

@[simp] theorem name_shake (s : Shake) (t : Tree) : (s.shake t).name = t.name := by
  cases t with
  | leaf => rw [shake]
  | node => rw [shake]; rfl

@[simp] theorem label_shake (s : Shake) (t : Tree) : (s.shake t).label = t.label := by
  cases t with
  | leaf => rw [shake]
  | node => rw [shake]; rfl

@[simp] theorem token?_shake (s : Shake) (t : Tree) : (s.shake t).token? = t.token? := by
  cases t with
  | leaf => rw [shake]
  | node => rw [shake]; rfl

/-- Trees that stay are shaken one by one. -/
theorem shakeList_of_stays {ts : List Tree} (stay : ∀ t ∈ ts, s.Stays t) :
    s.shakeList ts = ts.map s.shake := by
  induction ts with
  | nil => rw [shakeList, List.map_nil]
  | cons t ts ih =>
    obtain ⟨here, others⟩ := List.forall_mem_cons.1 stay
    rw [shakeList, here, ih others, List.singleton_append, List.map_cons]

/-- The trees below, if they stay and none are chained. -/
theorem children_shake (unchained : s.chain = []) (stay : ∀ c ∈ t.children, s.Stays c) :
    (s.shake t).children = t.children.map s.shake := by
  cases t with
  | leaf => rw [shake]; rfl
  | node name label choice children =>
    rw [shake, absorb, unchained]
    exact shakeList_of_stays stay

/-- What is read off the tokens of a tree. -/
theorem span_shake (unchained : s.chain = []) (t : Tree) : (s.shake t).span = t.span := by
  rw [Tree.span, Tree.span?, Tree.solidTokens, tokens_shake unchained]
  rfl

theorem text_shake (unchained : s.chain = []) (t : Tree) : (s.shake t).text = t.text := by
  rw [Tree.text, Tree.solidTokens, tokens_shake unchained]
  rfl

end Shake

namespace Assembly

open Shake

variable {t : Tree} {name : String} {label : Option String} {choice : Option Nat} {children : List Tree}

/-! ## Items -/

theorem integerOf_shake (t : Tree) : integerOf (language.shaker.shake t) = integerOf t := by
  rw [integerOf, integerOf, tokens_shake rfl, span_shake rfl]

/-- An operand is read alike if what is right below it stays and starts alike. -/
theorem operandOf_shake (stay : ∀ c ∈ t.children, language.shaker.Stays c)
    (negative : ∀ c ∈ t.children, isNegative (language.shaker.shake c) = isNegative c) :
    operandOf (language.shaker.shake t) = operandOf t := by
  rw [operandOf, operandOf, children_shake rfl stay, List.head?_map, span_shake rfl]
  cases first : t.children.head? with
  | none => rfl
  | some inner =>
    simp only [Option.map_some, name_shake, text_shake (s := language.shaker) rfl, integerOf_shake,
      negative inner (List.mem_of_head? first)]

/-- Operands are read alike one by one. -/
theorem mapM_operandOf_shake {ts : List Tree} (alike : ∀ c ∈ ts, c.name = "operand" →
    operandOf (language.shaker.shake c) = operandOf c) :
    ((ts.map language.shaker.shake).filter (·.name == "operand")).mapM operandOf
      = (ts.filter (·.name == "operand")).mapM operandOf := by
  induction ts with
  | nil => rfl
  | cons t ts ih =>
    obtain ⟨here, others⟩ := List.forall_mem_cons.1 alike
    rw [List.map_cons, List.filter_cons, List.filter_cons, name_shake]
    split
    · rename_i operand
      rw [List.mapM_cons, List.mapM_cons, here (beq_iff_eq.1 operand), ih others]
    · exact ih others

/-- An instruction is read alike if what is right below it stays, and its operands are read alike. -/
theorem instructionOf_shake (stay : ∀ c ∈ t.children, language.shaker.Stays c)
    (alike : ∀ c ∈ t.children, c.name = "operand" →
      operandOf (language.shaker.shake c) = operandOf c) :
    instructionOf (language.shaker.shake t) = instructionOf t := by
  have op : ((language.shaker.shake t).labeled? "op").map Tree.text
      = (t.labeled? "op").map Tree.text := by
    rw [Tree.labeled?, Tree.labeled?, children_shake rfl stay, List.find?_map, Option.map_map]
    simp only [Function.comp_def, label_shake, text_shake (s := language.shaker) rfl]
  rw [instructionOf, instructionOf, children_shake rfl stay, mapM_operandOf_shake alike, op,
    span_shake rfl]

/-- The item of a tree is read alike if it is no instruction, or this is. -/
theorem itemOf?_shake (line : t.name = "instruction" →
    instructionOf (language.shaker.shake t) = instructionOf t) :
    itemOf? (language.shaker.shake t) = itemOf? t := by
  rw [itemOf?, itemOf?, name_shake, token?_shake, tokens_shake rfl, span_shake rfl]
  split
  · rfl
  split
  · rfl
  split
  · rename_i instruction
    rw [line (beq_iff_eq.1 instruction)]
  · rfl

/-- The label of a tree plays no part in what it stands for. -/
theorem collect_inheritLabel (label : Option String) (t : Tree) :
    collect (inheritLabel label t) = collect t := by
  rcases inheritLabel_eq label t with eq | eq
  · rw [eq]
  · have same : itemOf? (t.withLabel label) = itemOf? t := by
      have tokens := Tree.tokens_withLabel label t
      cases t <;> simp only [itemOf?, instructionOf, Tree.span, Tree.span?, Tree.solidTokens, tokens] <;> rfl
    rw [eq]
    cases t <;> (rw [Tree.withLabel] at same ⊢; rw [collect, collect, same])

/-- Whether what shaking leaves of a tree has the items of the tree, or the same error. -/
def Alike (t : Tree) : Prop := collectList (language.shaker.shakeInner t) = collect t

theorem collectList_singleton (t : Tree) : collectList [t] = collect t := by
  rw [collectList, collectList]
  cases collect t with
  | error => rfl
  | ok items => exact congrArg Except.ok (List.append_nil items)

/-- For a tree that stays, these are the items of the shaken tree. -/
theorem alike_iff_of_stays (stays : language.shaker.Stays t) :
    Alike t ↔ collect (language.shaker.shake t) = collect t := by
  rw [Alike, stays, collectList_singleton]

theorem alike_leaf (name : String) (label terminal : Option String) (token : Token) :
    Alike (.leaf name label terminal token) :=
  (alike_iff_of_stays (stays_leaf ..)).2 (by rw [shake])

theorem collectList_append (ts us : List Tree) : collectList (ts ++ us) = (do
    let first ← collectList ts
    return first ++ (← collectList us)) := by
  induction ts with
  | nil =>
    rw [List.nil_append, collectList]
    cases collectList us <;> rfl
  | cons t ts ih =>
    rw [List.cons_append, collectList, collectList, ih]
    cases collect t with
    | error => rfl
    | ok first =>
      cases collectList ts with
      | error => rfl
      | ok more =>
        cases collectList us with
        | error => rfl
        | ok last => exact congrArg Except.ok (List.append_assoc ..).symm

/-- Trees with the items of others have them together. -/
theorem collectList_shakeList {ts : List Tree} (alike : ∀ t ∈ ts, Alike t) :
    collectList (language.shaker.shakeList ts) = collectList ts := by
  induction ts with
  | nil => rw [shakeList]
  | cons t ts ih =>
    obtain ⟨here, others⟩ := List.forall_mem_cons.1 alike
    rw [shakeList, collectList_append, here, ih others, collectList]

theorem collectList_inheritLabel (label : Option String) (ts : List Tree) :
    collectList (ts.map (inheritLabel label)) = collectList ts := by
  induction ts with
  | nil => rw [List.map_nil]
  | cons t ts ih => rw [List.map_cons, collectList, collectList, collect_inheritLabel, ih]

/-- A tree that is no instruction has its items if those below have theirs. -/
theorem alike_node (other : name ≠ "instruction") (alike : ∀ t ∈ children, Alike t) :
    Alike (.node name label choice children) := by
  have below := collectList_shakeList alike
  cases spliced : language.shaker.isSpliced name with
  | true =>
    have none : itemOf? (.node name label choice children) = none := by
      have kept : ∀ n ∈ itemNames, language.shaker.isSpliced n = false := by decide
      exact itemOf?_eq_none fun mem => absurd (kept name mem) (by rw [spliced]; decide)
    rw [Alike, shakeInner, collect, none]
    simp only [spliced, ↓reduceIte, collectList_inheritLabel, below]
  | false =>
    refine (alike_iff_of_stays (stays_node spliced ..)).2 ?_
    have same := itemOf?_shake (t := .node name label choice children) fun is => absurd is other
    rw [shake] at same ⊢
    rw [collect, same, collect]
    split
    · rfl
    · exact below

theorem alike_instruction (stay : ∀ c ∈ children, language.shaker.Stays c)
    (alike : ∀ c ∈ children, c.name = "operand" →
      operandOf (language.shaker.shake c) = operandOf c) :
    Alike (.node "instruction" label choice children) := by
  refine (alike_iff_of_stays (stays_node (by decide) ..)).2 ?_
  have same := itemOf?_shake (t := .node "instruction" label choice children) fun _ =>
    instructionOf_shake stay alike
  rw [shake] at same ⊢
  rw [collect, same, collect]
  rfl

/-! ## Signs -/

/-- A tree with nothing but leaves below it starts alike. -/
theorem isNegative_shake_of_leaves (leaves : ∀ c ∈ t.children, c.isLeaf) :
    isNegative (language.shaker.shake t) = isNegative t := by
  have same : ∀ c ∈ t.children, language.shaker.Stays c ∧ language.shaker.shake c = c := by
    intro c mem
    cases c with
    | leaf => exact ⟨stays_leaf .., by rw [shake]⟩
    | node => cases leaves _ mem
  have children : (language.shaker.shake t).children = t.children := by
    rw [children_shake rfl fun c mem => (same c mem).1, List.map_congr_left fun c mem => (same c mem).2]
    exact List.map_id' _
  rw [isNegative, isNegative, children]

theorem isNegative_of_leaf {c : Tree} (first : t.children.head? = some c) (leaf : c.isLeaf) :
    isNegative t = isMinus c := by
  cases c with
  | leaf =>
    rw [isNegative, first]
    exact Bool.or_false _
  | node => cases leaf

theorem isMinus_inheritLabel (label : Option String) (t : Tree) :
    isMinus (inheritLabel label t) = isMinus t := by
  rcases inheritLabel_eq label t with eq | eq
  · rw [eq]
  · rw [eq]
    cases t <;> rfl

/-- An integer starts alike: without a sign it starts with digits, and these are no minus sign. -/
theorem isNegative_shake_integer {sign : String} {signs : List Tree} {digits : Tree}
    {label' : Option String} {choice' : Option Nat} (spliced : language.shaker.isSpliced sign)
    (leaves : ∀ c ∈ signs, c.isLeaf) (leaf : digits.isLeaf) (noMinus : isMinus digits = false) :
    isNegative (language.shaker.shake
        (.node name label choice [.node sign label' choice' signs, digits]))
      = isNegative (.node name label choice [.node sign label' choice' signs, digits]) := by
  have below : (language.shaker.shake
      (.node name label choice [.node sign label' choice' signs, digits])).children
      = (language.shaker.shakeList signs).map (inheritLabel label') ++ [digits] := by
    cases digits with
    | leaf =>
      rw [shake, shakeList, shakeInner, shakeList, shakeInner, shakeList]
      simp only [spliced, ↓reduceIte]
      rfl
    | node => cases leaf
  have raw : isNegative (.node name label choice [.node sign label' choice' signs, digits])
      = signs.head?.any isMinus := Bool.false_or _
  rw [raw]
  cases signs with
  | nil =>
    rw [shakeList] at below
    exact (isNegative_of_leaf (congrArg List.head? below) leaf).trans noMinus
  | cons c cs =>
    obtain ⟨here, -⟩ := List.forall_mem_cons.1 leaves
    cases c with
    | leaf =>
      rw [shakeList, shakeInner] at below
      have first := congrArg List.head? below
      exact (isNegative_of_leaf first (by rw [isLeaf_inheritLabel]; rfl)).trans
        (isMinus_inheritLabel ..)
    | node => cases here

/-! ## The trees of the grammar -/

/-- Whether digits are no minus sign. -/
def NoMinus (token : Token) : Prop := token.type = "decimal_integer" → token.lexeme ≠ "-"

/-- What is known of the trees of a symbol: that they stay and are read alike, or that their items are. -/
def ReadAlike : Symbol → Tree → Prop
  | .terminal type, t => ∃ label token, t = .leaf type label none token ∧ token.type = type ∧ NoMinus token
  | .rule 6, t | .rule 7, t | .rule 8, t | .rule 9, t => language.shaker.Stays t
      ∧ (t.name = "operand" → operandOf (language.shaker.shake t) = operandOf t)
  | .rule 10, t | .rule 11, t | .rule 13, t => language.shaker.Stays t
      ∧ isNegative (language.shaker.shake t) = isNegative t
  | .rule _, t => Alike t

section

variable {terms : List Term}

/-- The tree of a term is read alike if those of its symbol are. -/
theorem alike_term {term : Term} (h : readGrammar.TermHas ReadAlike term t)
    (each : ∀ t, ReadAlike term.symbol t → Alike t) : Alike t := by
  cases h with
  | once _ known => exact each t known
  | often many _ known =>
    refine alike_node (fun is => ?_) fun t mem => each t (known t mem)
    exact absurd (isGenerated_suffix many _) (by rw [is]; decide)

theorem alike_of_terminal {type : String} (known : ReadAlike (.terminal type) t) : Alike t := by
  obtain ⟨label, token, rfl, -⟩ := known
  exact alike_leaf ..

/-- What an instruction is made of stays, and its operands are read alike. -/
theorem readAlike_parts
    (parts : ∀ term ∈ terms, term.multiplicity = .one
      ∧ (term.symbol = .rule 6 ∨ term.symbol = .rule 7 ∨ term.symbol = .rule 8 ∨ term.symbol = .rule 9))
    (h : List.Forall₂ (readGrammar.TermHas ReadAlike) terms children) :
    ∀ t ∈ children, language.shaker.Stays t
      ∧ (t.name = "operand" → operandOf (language.shaker.shake t) = operandOf t) := by
  induction h with
  | nil => exact List.forall_mem_nil _
  | cons first _ ih =>
    obtain ⟨⟨once, part⟩, others⟩ := List.forall_mem_cons.1 parts
    have known := (first.of_once once).1
    refine List.forall_mem_cons.2 ⟨?_, ih others⟩
    rcases part with part | part | part | part <;> rw [part] at known <;> exact known

/-- An operand is read alike. -/
theorem operandOf_shake_of_terms {inner : Tree}
    (known : language.shaker.Stays inner
      ∧ isNegative (language.shaker.shake inner) = isNegative inner) :
    operandOf (language.shaker.shake (.node name label choice [inner]))
      = operandOf (.node name label choice [inner]) :=
  operandOf_shake (List.forall_mem_singleton.2 known.1) (List.forall_mem_singleton.2 known.2)

end

/-- What is known of the tree of an alternative. -/
theorem readAlike_of_choice {id : Nat} {name : String} {alternatives : List (List Term)} {index : Nat}
    {terms : List Term} {label : Option String} {children : List Tree}
    (found : readGrammar.rules[id]? = some ⟨name, .choice alternatives⟩)
    (among : alternatives[index]? = some terms)
    (h : List.Forall₂ (readGrammar.TermHas ReadAlike) terms children) :
    ReadAlike (.rule id) (.node name label (some index) children) := by
  match id, found with
  | 0, found =>
    obtain ⟨rfl, rfl, rfl⟩ := Grammar.only_inj found among
    obtain _ | ⟨data, _ | ⟨code, _ | _⟩⟩ := h
    refine alike_node (by decide) (List.forall_mem_cons.2 ⟨?_, List.forall_mem_singleton.2 ?_⟩)
    · exact alike_term data fun _ known => known
    · exact alike_term code fun _ known => known
  | 1, found | 2, found =>
    obtain ⟨rfl, rfl, rfl⟩ := Grammar.only_inj found among
    obtain _ | ⟨header, _ | ⟨items, _ | _⟩⟩ := h
    refine alike_node (by decide) (List.forall_mem_cons.2 ⟨?_, List.forall_mem_singleton.2 ?_⟩)
    · exact alike_term header fun _ => alike_of_terminal
    · exact alike_term items fun _ known => known
  | 3, found =>
    obtain ⟨rfl, rfl⟩ := Grammar.choice_inj found
    match index, among with
    | 0, among | 1, among =>
      obtain rfl := Option.some.inj among
      obtain _ | ⟨item, _ | _⟩ := h
      exact alike_node (by decide) (List.forall_mem_singleton.2 (alike_term item fun _ known => known))
  | 4, found =>
    obtain ⟨rfl, rfl, rfl⟩ := Grammar.only_inj found among
    obtain _ | ⟨name, _ | ⟨colon, _ | _⟩⟩ := h
    refine alike_node (by decide) (List.forall_mem_cons.2 ⟨?_, List.forall_mem_singleton.2 ?_⟩)
    · exact alike_term name fun _ => alike_of_terminal
    · exact alike_term colon fun _ => alike_of_terminal
  | 5, found =>
    obtain ⟨rfl, rfl⟩ := Grammar.choice_inj found
    match index, among with
    | 0, among | 1, among | 2, among =>
      obtain rfl := Option.some.inj among
      have known := readAlike_parts (by simp) h
      exact alike_instruction (fun c mem => (known c mem).1) fun c mem => (known c mem).2
  | 6, found | 7, found | 8, found =>
    obtain ⟨rfl, rfl⟩ := Grammar.choice_inj found
    exact ⟨stays_node (by decide) .., fun is => by simp [Tree.name] at is⟩
  | 9, found =>
    obtain ⟨rfl, rfl⟩ := Grammar.choice_inj found
    match index, among with
    | 0, among | 1, among | 2, among =>
      obtain rfl := Option.some.inj among
      obtain _ | ⟨inner, _ | _⟩ := h
      exact ⟨stays_node (by decide) .., fun _ => operandOf_shake_of_terms (inner.of_once rfl).1⟩
  | 10, found =>
    obtain ⟨rfl, rfl, rfl⟩ := Grammar.only_inj found among
    obtain _ | ⟨sign, _ | ⟨digits, _ | _⟩⟩ := h
    obtain ⟨signs, rfl, -, leaves, -⟩ := sign.of_often (by decide)
    obtain ⟨⟨_, token, rfl, is, noMinus⟩, -⟩ := digits.of_once rfl
    refine ⟨stays_node (by decide) .., isNegative_shake_integer (by decide) (fun c mem => ?_) rfl ?_⟩
    · obtain ⟨_, _, rfl, -⟩ := leaves c mem
      rfl
    · exact beq_false_of_ne (noMinus is)
  | 11, found =>
    obtain ⟨rfl, rfl, rfl⟩ := Grammar.only_inj found among
    obtain _ | ⟨equals, _ | ⟨digits, _ | _⟩⟩ := h
    obtain ⟨⟨_, _, rfl, -⟩, -⟩ := equals.of_once rfl
    obtain ⟨⟨_, _, rfl, -⟩, -⟩ := digits.of_once rfl
    refine ⟨stays_node (by decide) .., isNegative_shake_of_leaves ?_⟩
    exact List.forall_mem_cons.2 ⟨rfl, List.forall_mem_singleton.2 rfl⟩
  -- an alias has no alternatives
  | 12, found | 13, found => cases found

/-- What is known of a token by another name. -/
theorem readAlike_of_alias {id : Nat} {name type : String} {label : Option String} {token : Token}
    (found : readGrammar.rules[id]? = some ⟨name, .aliasOf type⟩) :
    ReadAlike (.rule id) (.leaf name label (some type) token) := by
  match id, found with
  | 0, found | 1, found | 2, found | 3, found | 4, found | 5, found | 6, found | 7, found | 8, found
  | 9, found | 10, found | 11, found => cases found
  | 12, found => exact alike_leaf ..
  | 13, found => exact ⟨stays_leaf .., by rw [shake]⟩

/-- **What is known of a tree** of a symbol. -/
theorem readAlike_of_derives {s : Symbol} {t : Tree} (derived : readGrammar.Derives s t)
    (digits : ∀ token ∈ t.tokens, NoMinus token) : ReadAlike s t := by
  refine derived.induct ?terminal ?another ?choice digits
  case terminal =>
    intro type label token is digits
    exact ⟨label, token, rfl, is, digits⟩
  case another =>
    intro id name type label token found _ _
    exact readAlike_of_alias found
  case choice =>
    intro id name alternatives index terms label children found among h
    exact readAlike_of_choice found among h

/-- What a lexicon cuts out as digits is no minus sign. -/
theorem noMinus_of_whole {l : Lexicon} {token : Token} (whole : l.Whole token) : NoMinus token := by
  intro is same
  have isDigit := (whole.isDigit is).1 '-' (by simp [same])
  cases isDigit

/-- **A source assembles alike** from its raw tree and from its shaken one. The listing is the same,
the stretches of source that its lines come from included, or the error is, and so is the program. -/
theorem assemble_shake {source : String} {t : Tree} (parsed : language.parse source = .ok t) :
    Listing.ofTree (language.shake t) = Listing.ofTree t
      ∧ assemble (language.shake t) = assemble t := by
  have grammar : language.grammar? = .ok readGrammar := grammar_eq
  have vocabulary : readGrammar.vocabulary = lexicon.vocabulary := rfl
  obtain ⟨derived, -, ts, -, each⟩ := Language.whole_of_parse grammar vocabulary parsed
  have digits : ∀ token ∈ t.tokens, NoMinus token := by
    intro token mem is
    rcases each token mem with reserved | ⟨-, whole⟩
    · rw [is] at reserved
      exact absurd reserved (by decide)
    · exact noMinus_of_whole whole is
  have alike : Alike t := readAlike_of_derives derived digits
  have same : collect (language.shake t) = collect t := by
    obtain ⟨children, node, -⟩ := derived.of_only rfl
    rw [node] at alike ⊢
    exact (alike_iff_of_stays (stays_node (by decide) ..)).1 alike
  have listing : Listing.ofTree (language.shake t) = Listing.ofTree t := by
    rw [Listing.ofTree, same, Listing.ofTree]
  exact ⟨listing, by rw [assemble, assemble, listing]⟩

/-- A negative number, one that is too large to be read, and a text. -/
theorem assemble_shake_signed :
    ∃ t, language.parse ".data \"\" .code a:set r1 -2 jumpv -99999999999999999999" = .ok t
      ∧ Listing.ofTree (language.shake t) = Listing.ofTree t
      ∧ assemble (language.shake t) = assemble t := by
  have grammar : language.grammar? = .ok readGrammar := grammar_eq
  obtain ⟨t, parsed, -⟩ := @Language.exists_parse _ _ _ grammar rfl
    ".data \"\" .code a:set r1 -2 jumpv -99999999999999999999" (fun _ => true) 40 (by decide +kernel)
  exact ⟨t, parsed, assemble_shake parsed⟩

end Assembly

end Polyglot
