import Polyglot.Proofs.Grammar.Written
import Polyglot.Proofs.Parsing.Agreement
import Polyglot.Proofs.Parsing.Predictive

/-!
# Reading written declarations

The source of declarations is read with the grammar of written grammars. Which tree it has is
told by its parts (`Xbnf.treeOf`), and that it is read as this tree is shown part by part:
what a phrase is found as depends only on what may follow it (`Xbnf.Follows`). That an
identifier is a label, and not the terminal of this name, shows at the token after it; all else
shows at the next token.

Groups may stand in each other to any depth, so the calls of rules go deeper the deeper the
groups are; there is a depth that is enough for a phrase and all that is in it (`Xbnf.phrase_found`).
-/

namespace Polyglot

open Along (RuleReads SymbolReads TermReads SeqReads SymbolFails nextType exists_depth)
open Assembly (word)
open B (one)
open Lexicon (Shape isReserved_quote mark nameToken textToken)

namespace Xbnf

/-! ## Trees -/

/-- The tree of a name between angle brackets. -/
def nameTree (name : String) : Tree :=
  .node "nonterminal" none (some 0)
    [.ofToken (mark "<"), .ofToken (nameToken name), .ofToken (mark ">")]

/-- The tree of a terminal. -/
def terminalTree (name : String) : Tree :=
  .node "terminal" none (some (terminalChoice name)) [.ofToken (terminalToken name)]

/-- The tree of an alternative, from those of its phrases. -/
def expressionTree (phrases : List Tree) : Tree :=
  .node "expression" none (some 0) [.node "term+" none none phrases]

/-- The tree of alternatives, from those of their phrases. -/
def bodyTree (alternatives : List (List Tree)) : Tree :=
  .node "body" none (some 0) <|
    match alternatives with
    | [] => []
    | first :: others =>
      [expressionTree first, .node "body:0*" none none (others.map fun phrases =>
        .node "body:0" none (some 0) [.ofToken (mark "|"), expressionTree phrases])]

theorem bodyTree_cons {α : Type} (treeOf : α → Tree) (first : List α) (others : List (List α)) :
    bodyTree ((first :: others).map (·.map treeOf)) = .node "body" none (some 0)
      [expressionTree (first.map treeOf), .node "body:0*" none none (others.map fun phrases =>
        .node "body:0" none (some 0) [.ofToken (mark "|"), expressionTree (phrases.map treeOf)])] := by
  simp only [bodyTree, List.map_cons, List.map_map, Function.comp_def]

/-- The tree of what a phrase asks for, from those of the phrases in a group. -/
def atomTree : Atom Tree → Tree
  | .rule name => .node "atom" none (some 0) [nameTree name]
  | .terminal name => .node "atom" none (some 1) [terminalTree name]
  | .group alternatives =>
    .node "atom" none (some 2) [.ofToken (mark "("), bodyTree alternatives, .ofToken (mark ")")]

/-- The tree of a label, if there is one. -/
def labelTree (label : Option String) : Tree :=
  .node "term:0?" none none <|
    match label with
    | some label =>
      [.node "term:0" none (some 0) [.ofToken (nameToken label), .ofToken (mark "=")]]
    | none => []

/-- The tree of the sign of a multiplicity, if there is one. -/
def multiplicityTree (m : Multiplicity) : Tree :=
  let sign (choice : Nat) : List Tree :=
    [.node "multiplicity" none (some choice) [.ofToken (mark m.suffix)]]
  .node "multiplicity?" none none <|
    match m with
    | .one => []
    | .optional => sign 0
    | .star => sign 1
    | .plus => sign 2

/-- The tree of a phrase. -/
def phraseTree : Phrase → Tree :=
  Phrase.fold fun atom multiplicity label =>
    .node "term" none (some 0) [labelTree label, atomTree atom, multiplicityTree multiplicity]

/-- The tree of a declaration. -/
def declarationTree : Declaration → Tree
  | .rule name alternatives =>
    .node "declaration" none (some 0) [.node "rule" none (some 0)
      [nameTree name, .ofToken (mark "::="), bodyTree (alternatives.map (·.map phraseTree)),
        .ofToken (mark ";")]]
  | .aliasOf name terminal =>
    .node "declaration" none (some 1) [.node "alias_rule" none (some 0)
      [.ofToken (mark "alias"), nameTree name, .ofToken (mark "::="), terminalTree terminal,
        .ofToken (mark ";")]]

/-- The tree of the source of declarations. -/
def treeOf (ds : List Declaration) : Tree :=
  .node "xbnf" none (some 0) [.node "declaration*" none none (ds.map declarationTree)]

/-! ## Which tree the tokens have -/

/-- The types of what phrases start with. -/
def startTypes : List String := ["identifier", "escaped_string"] ++ ["$", "<", "("].map Text.quote

/-- The types of what alternatives stop with. -/
def stopTypes : List String := ["|", ";", ")"].map Text.quote

/-- Whether a phrase may stand before tokens: the next is the start of another phrase, or the
alternative stops there. -/
def Follows (rest : List Token) : Prop :=
  ∃ type ∈ startTypes ++ stopTypes, nextType rest = some type

/-- Whether an alternative may stand before tokens. -/
def Stops (rest : List Token) : Prop := ∃ type ∈ stopTypes, nextType rest = some type

/-- Whether a body may stand before tokens. -/
def Ends (rest : List Token) : Prop := ∃ sign ∈ [";", ")"], nextType rest = some (Text.quote sign)

section

variable {depth base : Nat} {rest : List Token}

theorem word_found {text : String} :
    TermReads readGrammar depth base (word text) [mark text] (.ofToken (mark text)) rest :=
  .once rfl rfl (.terminal rfl (isReserved_quote text))

theorem identifier_found {name : String} :
    TermReads readGrammar depth base { symbol := .terminal "identifier" } [nameToken name]
      (.ofToken (nameToken name)) rest :=
  .once rfl rfl (.terminal rfl (by decide))

theorem name_found (name : String) :
    RuleReads readGrammar (depth + 1) 10 [mark "<", nameToken name, mark ">"] (nameTree name) rest :=
  .only rfl (.cons word_found (.cons identifier_found (.one word_found)))

theorem name_held (name : String) (after : base < 10) :
    TermReads readGrammar (depth + 1) base (one 10) [mark "<", nameToken name, mark ">"]
      (nameTree name) rest :=
  .once rfl rfl (.rule after (name_found name))

theorem terminal_found {name : String} (h : IsTerminal name) :
    RuleReads readGrammar (depth + 1) 9 [terminalToken name] (terminalTree name) rest := by
  unfold terminalTree
  rcases h with ⟨text, rfl⟩ | rfl | isName
  · have selected : Along.selects readGrammar "escaped_string" 0 9 0 := by decide
    rw [terminalChoice_quote, terminalToken_quote]
    exact .alternative rfl rfl rfl (Along.selects_mono (Nat.zero_le _) selected)
      (.one (.once rfl rfl (.terminal rfl (by decide))))
  · have selected : Along.selects readGrammar (Text.quote "$") 0 9 2 := by decide
    exact .alternative rfl rfl rfl (Along.selects_mono (Nat.zero_le _) selected) (.one word_found)
  · have selected : Along.selects readGrammar "identifier" 0 9 1 := by decide
    rw [terminalChoice_name isName, terminalToken_name isName]
    exact .alternative rfl rfl rfl (Along.selects_mono (Nat.zero_le _) selected)
      (.one identifier_found)

/-! ### Labels and multiplicities -/

theorem label_found (label : String) :
    TermReads readGrammar (depth + 1) 7 { one 13 with multiplicity := .optional }
      (labelTokens label) (labelTree label) rest :=
  .optional_some rfl (List.cons_ne_nil _ _) <|
    .rule (by decide) (.only rfl (.cons identifier_found (.one word_found)))

theorem multiplicity_found (m : Multiplicity) (follows : Follows rest) :
    TermReads readGrammar (depth + 1) 7 { one 11 with multiplicity := .optional }
      (multiplicityTokens m) (multiplicityTree m) rest := by
  obtain ⟨type, mem, next⟩ := follows
  have sign {i : Nat} {text : String}
      (there : readGrammar.rules[11]? = some ⟨"multiplicity", .choice
        [[word "?"], [word "*"], [word "+"]]⟩)
      (terms : [[word "?"], [word "*"], [word "+"]][i]? = some [word text])
      (selected : Along.selects readGrammar (Text.quote text) 0 11 i) :
      TermReads readGrammar (depth + 1) 7 { one 11 with multiplicity := .optional } [mark text]
        (.node "multiplicity?" none none
          [.node "multiplicity" none (some i) [.ofToken (mark text)]]) rest :=
    .optional_some rfl (List.cons_ne_nil _ _) <| .rule (by decide) <|
      .alternative there terms rfl (Along.selects_mono (Nat.zero_le _) selected) (.one word_found)
  cases m with
  | one =>
    have refused : ∀ type ∈ startTypes ++ stopTypes,
        Along.refusesAfter readGrammar (some type) 1 7 (.rule 11) := by decide
    refine .optional_none rfl ?_
    rw [next]
    exact Along.refusesAfter_mono (by omega) (refused type mem)
  | optional => exact sign rfl rfl (by decide)
  | star => exact sign rfl rfl (by decide)
  | plus => exact sign rfl rfl (by decide)

/-! ### Alternatives -/

section

variable {α : Type} {tokensOf : α → List Token} {treeOf : α → Tree}

/-- Whether something is found as a phrase at a depth and at all greater ones. -/
def FoundFrom (depth : Nat) (tokens : List Token) (t : Tree) : Prop :=
  ∀ depth' ≥ depth, ∀ rest, Follows rest → RuleReads readGrammar depth' 7 tokens t rest

/-- Whether tokens start like a phrase. -/
def Starts (tokens : List Token) : Prop := ∃ type ∈ startTypes, nextType tokens = some type

theorem Starts.follows {tokens : List Token} (h : Starts tokens) (rest : List Token) :
    Follows (tokens ++ rest) := by
  obtain ⟨type, mem, next⟩ := h
  refine ⟨type, List.mem_append_left _ mem, ?_⟩
  cases tokens with
  | nil => cases next
  | cons t tokens => exact next

theorem Starts.ne_nil {tokens : List Token} (h : Starts tokens) : tokens ≠ [] := by
  rintro rfl
  obtain ⟨type, -, next⟩ := h
  cases next

theorem expression_found (least : 3 ≤ depth) {as : List α} (solid : as ≠ [])
    (each : ∀ a ∈ as, FoundFrom depth (tokensOf a) (treeOf a))
    (starts : ∀ a ∈ as, Starts (tokensOf a)) (stops : Stops rest) {depth' : Nat}
    (deep : depth + 1 ≤ depth') :
    RuleReads readGrammar depth' 6 (as.flatMap tokensOf) (expressionTree (as.map treeOf)) rest := by
  obtain ⟨depth', rfl⟩ : ∃ n, depth' = n + 1 := ⟨depth' - 1, by omega⟩
  obtain ⟨type, mem, next⟩ := stops
  have refused : ∀ type ∈ stopTypes, Along.refusesAfter readGrammar (some type) 3 6 (.rule 7) := by
    decide
  have ends : SymbolFails readGrammar depth' 6 (.rule 7) rest := .of_refuses <| by
    rw [next]
    exact Along.refusesAfter_mono (by omega) (refused type mem)
  refine .only rfl (.one (.many (t := { one 7 with multiplicity := .plus }) (.inr ⟨rfl, solid⟩)
    (fun a mem more follows => ?_) (fun a mem => (starts a mem).ne_nil)
    (fun a mem more => (starts a mem).follows more) ⟨type, List.mem_append_right _ mem, next⟩ ends))
  exact .rule (by decide) (each a mem depth' (by omega) more follows)

/-- **Alternatives are found** if what stands in them is found. -/
theorem body_found (least : 3 ≤ depth) {alternatives : List (List α)} (solid : alternatives ≠ [])
    (solids : ∀ as ∈ alternatives, as ≠ [])
    (each : ∀ as ∈ alternatives, ∀ a ∈ as, FoundFrom depth (tokensOf a) (treeOf a))
    (starts : ∀ as ∈ alternatives, ∀ a ∈ as, Starts (tokensOf a)) (ends : Ends rest) {depth' : Nat}
    (deep : depth + 3 ≤ depth') :
    RuleReads readGrammar depth' 5 (bodyTokens (alternatives.map (·.map tokensOf)))
      (bodyTree (alternatives.map (·.map treeOf))) rest := by
  obtain ⟨depth', rfl⟩ : ∃ n, depth' = n + 2 := ⟨depth' - 2, by omega⟩
  obtain ⟨sign, isEnd, next⟩ := ends
  have stops : Stops rest := by
    refine ⟨Text.quote sign, List.mem_map_of_mem ?_, next⟩
    exact List.mem_cons_of_mem _ isEnd
  obtain ⟨first, others, rfl⟩ := List.exists_cons_of_ne_nil solid
  obtain ⟨solid, solids⟩ := List.forall_mem_cons.1 solids
  obtain ⟨each, eachOther⟩ := List.forall_mem_cons.1 each
  obtain ⟨starts, startsOther⟩ := List.forall_mem_cons.1 starts
  have found {as : List α} (mem : as ∈ others) (more : List Token) (stops : Stops more) :
      RuleReads readGrammar (depth' + 1) 12 ([mark "|"] ++ as.flatMap tokensOf)
        (.node "body:0" none (some 0) [.ofToken (mark "|"), expressionTree (as.map treeOf)]) more :=
    .only rfl <| .cons_further word_found (List.cons_ne_nil _ _) <| .one <| .once rfl rfl <|
      .rule (by decide) <| expression_found least (solids as mem) (eachOther as mem)
        (startsOther as mem) stops (by omega)
  -- neither sign that may come next goes on with another alternative
  have refused : ∀ sign ∈ [";", ")"],
      Along.refusesAfter readGrammar (some (Text.quote sign)) 1 5 (.rule 12) := by
    decide
  have more : TermReads readGrammar (depth' + 1) 5 { one 12 with multiplicity := .star }
      (others.flatMap fun as => [mark "|"] ++ as.flatMap tokensOf)
      (.node "body:0*" none none (others.map fun as => .node "body:0" none (some 0)
        [.ofToken (mark "|"), expressionTree (as.map treeOf)])) rest := by
    refine .many (t := { one 12 with multiplicity := .star }) (P := Stops) (.inl rfl)
      (fun as mem more stops => .rule (by decide) (found mem more stops))
      (fun as _ => List.cons_ne_nil _ _) (fun as _ more => ?_) stops (.of_refuses ?_)
    · exact ⟨Text.quote "|", by decide, rfl⟩
    · rw [next]
      exact Along.refusesAfter_mono (by omega) (refused sign isEnd)
  have stopsFirst : Stops ((others.flatMap fun as => [mark "|"] ++ as.flatMap tokensOf) ++ rest) := by
    cases others with
    | nil => exact stops
    | cons => exact ⟨Text.quote "|", by decide, rfl⟩
  have least' : depth + 1 ≤ depth' + 1 := by omega
  have inner := expression_found least solid each starts stopsFirst least'
  have tokens : bodyTokens ((first :: others).map (·.map tokensOf))
      = first.flatMap tokensOf ++ others.flatMap fun as => [mark "|"] ++ as.flatMap tokensOf := by
    simp only [bodyTokens, List.map_cons, List.map_map, List.flatMap_def, Function.comp_def,
      List.singleton_append]
  rw [tokens, bodyTree_cons]
  exact .only rfl (.cons (.once rfl rfl (.rule (by decide) inner)) (.one more))

/-! ### Phrases -/

/-- What follows what a phrase asks for is no sign of a label. -/
theorem nextType_multiplicity (m : Multiplicity) (follows : Follows rest) :
    nextType (multiplicityTokens m ++ rest) ≠ some (Text.quote "=") := by
  obtain ⟨type, mem, next⟩ := follows
  cases m with
  | one =>
    have never : Text.quote "=" ∉ startTypes ++ stopTypes := by decide
    intro eq
    obtain rfl := Option.some.inj (next.symm.trans eq)
    exact never mem
  | optional | star | plus =>
    intro eq
    exact absurd (Option.some.inj eq) (by decide)

/-- A phrase is found if what it asks for is, and cannot be taken for a label where there is
none. -/
theorem decorated_found (least : 1 ≤ depth) {tokens : List Token} {t : Tree}
    (bare : t.withLabel none = t) {multiplicity : Multiplicity} {label : Option String}
    (atom : ∀ depth' ≥ depth, ∀ rest, RuleReads readGrammar depth' 8 tokens t rest)
    (unlabeled : ∀ depth' ≥ depth, ∀ rest, nextType rest ≠ some (Text.quote "=") →
      SymbolFails readGrammar depth' 7 (.rule 13) (tokens ++ rest)) :
    FoundFrom (depth + 1) (labelTokens label ++ tokens ++ multiplicityTokens multiplicity)
      (.node "term" none (some 0) [labelTree label, t, multiplicityTree multiplicity]) := by
  intro depth' deep rest follows
  obtain ⟨depth', rfl⟩ : ∃ n, depth' = n + 2 := ⟨depth' - 2, by omega⟩
  have found : SeqReads readGrammar (depth' + 1) 7
      [one 8, { one 11 with multiplicity := .optional }]
      (tokens ++ multiplicityTokens multiplicity) [t, multiplicityTree multiplicity] rest :=
    .cons (.once rfl bare (.rule (by decide) (atom (depth' + 1) (by omega) _)))
      (.one (multiplicity_found multiplicity follows))
  rw [List.append_assoc]
  refine .only rfl (.cons ?_ found)
  cases label with
  | some label => exact label_found label
  | none =>
    refine .optional_absent rfl ?_
    rw [List.append_assoc]
    exact unlabeled (depth' + 1) (by omega) _ (nextType_multiplicity multiplicity follows)

/-- What starts with no identifier starts with no label. -/
theorem unlabeled_of_type {tokens : List Token} {type : String} (next : nextType tokens = some type)
    (mem : type ∈ startTypes) (other : type ≠ "identifier") (least : 1 ≤ depth) (rest : List Token) :
    SymbolFails readGrammar depth 7 (.rule 13) (tokens ++ rest) := by
  have refused : ∀ type ∈ startTypes, type ≠ "identifier" →
      Along.refusesAfter readGrammar (some type) 1 7 (.rule 13) := by
    decide
  refine .of_refuses ?_
  cases tokens with
  | nil => cases next
  | cons t tokens =>
    have next : nextType (t :: tokens ++ rest) = some type := next
    rw [next]
    exact Along.refusesAfter_mono least (refused type mem other)

/-- If all that stands in alternatives is found from some depth on, it is so from one depth on. -/
theorem exists_depth_body {alternatives : List (List α)}
    (each : ∀ as ∈ alternatives, ∀ a ∈ as, ∃ depth, FoundFrom depth (tokensOf a) (treeOf a)) :
    ∃ depth ≥ 3, ∀ as ∈ alternatives, ∀ a ∈ as, FoundFrom depth (tokensOf a) (treeOf a) := by
  have flat : ∀ a ∈ alternatives.flatten, ∃ depth, FoundFrom depth (tokensOf a) (treeOf a) := by
    intro a mem
    obtain ⟨as, mem, mem'⟩ := List.mem_flatten.1 mem
    exact each as mem a mem'
  obtain ⟨depth, least, found⟩ := exists_depth 3 flat
  exact ⟨depth, least, fun as mem a mem' => found a (List.mem_flatten_of_mem mem mem')⟩

theorem starts_terminal {name : String} (h : IsTerminal name) :
    (terminalToken name).type ∈ startTypes
      ∧ Along.selects readGrammar (terminalToken name).type 1 8 1 := by
  rcases h with ⟨text, rfl⟩ | rfl | isName
  · rw [terminalToken_quote]
    show "escaped_string" ∈ startTypes ∧ Along.selects readGrammar "escaped_string" 1 8 1
    decide
  · decide
  · rw [terminalToken_name isName]
    show "identifier" ∈ startTypes ∧ Along.selects readGrammar "identifier" 1 8 1
    decide

theorem starts_phrase {p : Phrase} (written : p.Written) : Starts p.tokens := by
  have labeled (label : Option String) {tokens : List Token} (more : List Token)
      (starts : Starts tokens) : Starts (labelTokens label ++ tokens ++ more) := by
    cases label with
    | some label => exact ⟨"identifier", by decide, rfl⟩
    | none =>
      obtain ⟨type, mem, next⟩ := starts
      cases tokens with
      | nil => cases next
      | cons t tokens => exact ⟨type, mem, next⟩
  cases written with
  | rule => exact labeled _ _ ⟨Text.quote "<", by decide, rfl⟩
  | terminal named => exact labeled _ _ ⟨_, (starts_terminal named).1, rfl⟩
  | group =>
    rw [Phrase.tokens, Phrase.fold_group]
    exact labeled _ _ ⟨Text.quote "(", by decide, rfl⟩

/-- **Phrases are found** as their trees. -/
theorem phrase_found {p : Phrase} (written : p.Written) :
    ∃ depth, FoundFrom depth p.tokens (phraseTree p) := by
  induction written with
  | @rule name multiplicity label named labeled =>
    have next : nextType [mark "<", nameToken name, mark ">"] = some (Text.quote "<") := rfl
    refine ⟨3, decorated_found (by decide) rfl (fun depth' deep rest => ?_) fun depth' deep rest _ =>
      unlabeled_of_type next (by decide) (by decide) (by omega) rest⟩
    obtain ⟨depth', rfl⟩ : ∃ n, depth' = n + 2 := ⟨depth' - 2, by omega⟩
    have selected : Along.selects readGrammar (Text.quote "<") 1 8 0 := by decide
    exact .alternative rfl rfl rfl (Along.selects_mono (by omega) selected)
      (.one (name_held name (by decide)))
  | @terminal name multiplicity label named labeled =>
    obtain ⟨mem, selected⟩ := starts_terminal named
    refine ⟨3, decorated_found (by decide) rfl (fun depth' deep rest => ?_) fun depth' deep rest next => ?_⟩
    · obtain ⟨depth', rfl⟩ : ∃ n, depth' = n + 2 := ⟨depth' - 2, by omega⟩
      exact .alternative rfl rfl rfl (Along.selects_mono (by omega) selected)
        (.one (.once rfl rfl (.rule (by decide) (terminal_found named))))
    · -- a name could be that of a label, but then an equals sign would follow
      by_cases is : (terminalToken name).type = "identifier"
      · obtain ⟨depth', rfl⟩ : ∃ n, depth' = n + 1 := ⟨depth' - 1, by omega⟩
        have refused : Along.refusesTerminal (nextType rest) (Text.quote "=") := by
          rw [Along.refusesTerminal, isReserved_quote]
          exact bne_iff_ne.2 next
        exact .rule (by decide) rfl (List.forall_mem_singleton.2
          (.token rfl rfl is (by decide) (.of_refuses (Bool.and_eq_true_iff.2 ⟨refused, rfl⟩))))
      · exact unlabeled_of_type rfl mem is (by omega) rest
  | @group alternatives multiplicity label solid solids each labeled ih =>
    obtain ⟨depth, least, found⟩ := exists_depth_body ih
    rw [Phrase.tokens, phraseTree, Phrase.fold_group, Phrase.fold_group]
    have next : nextType (atomTokens (.group (alternatives.map (·.map Phrase.tokens))))
        = some (Text.quote "(") := rfl
    refine ⟨depth + 5, decorated_found (by omega) rfl (fun depth' deep rest => ?_)
      fun depth' deep rest _ => unlabeled_of_type next (by decide) (by decide) (by omega) rest⟩
    obtain ⟨depth', rfl⟩ : ∃ n, depth' = n + 1 := ⟨depth' - 1, by omega⟩
    have body : RuleReads readGrammar depth' 5 (bodyTokens (alternatives.map (·.map Phrase.tokens)))
        (bodyTree (alternatives.map (·.map phraseTree))) ([mark ")"] ++ rest) :=
      body_found least solid solids found
        (fun as mem p mem' => starts_phrase (each as mem p mem')) ⟨")", by decide, rfl⟩ (by omega)
    have selected : Along.selects readGrammar (Text.quote "(") 1 8 2 := by decide
    exact .alternative rfl rfl rfl (Along.selects_mono (by omega) selected)
      (.cons_further word_found (List.cons_ne_nil _ _)
        (.cons (.once rfl rfl (.rule (by decide) body)) (.one word_found)))

/-! ### Declarations -/

/-- **Declarations are found** as their trees, whatever follows. -/
theorem declaration_found {d : Declaration} (written : d.Written) :
    ∃ depth, ∀ depth' ≥ depth, ∀ rest,
      RuleReads readGrammar depth' 1 d.tokens (declarationTree d) rest := by
  cases d with
  | rule name alternatives =>
    obtain ⟨named, solid, each⟩ := written
    obtain ⟨depth, least, found⟩ := exists_depth_body fun as mem p mem' =>
      phrase_found ((each as mem).2 p mem')
    refine ⟨depth + 5, fun depth' deep rest => ?_⟩
    obtain ⟨depth', rfl⟩ : ∃ n, depth' = n + 2 := ⟨depth' - 2, by omega⟩
    obtain ⟨depth'', rfl⟩ : ∃ n, depth' = n + 1 := ⟨depth' - 1, by omega⟩
    have body : TermReads readGrammar (depth'' + 1) 2 (one 5)
        (bodyTokens (alternatives.map (·.map Phrase.tokens)))
        (bodyTree (alternatives.map (·.map phraseTree))) ([mark ";"] ++ rest) :=
      .once rfl rfl <| .rule (by decide) <| body_found least solid (fun as mem => (each as mem).1)
        found (fun as mem p mem' => starts_phrase ((each as mem).2 p mem')) ⟨";", by decide, rfl⟩
        (by omega)
    have terms : SeqReads readGrammar (depth'' + 1) 2 [one 10, word "::=", one 5, word ";"] _ _ rest :=
      .cons (name_held name (by decide)) (.cons word_found (.cons body (.one word_found)))
    have selected : Along.selects readGrammar (Text.quote "<") 2 1 0 := by decide
    refine .alternative rfl rfl rfl (Along.selects_mono (by omega) selected) (.one (.once rfl rfl
      (.rule (by decide) (.only rfl ?_))))
    rw [Declaration.tokens, List.append_assoc]
    exact terms
  | aliasOf name terminal =>
    obtain ⟨named, isTerminal⟩ := written
    refine ⟨3, fun depth' deep rest => ?_⟩
    obtain ⟨depth', rfl⟩ : ∃ n, depth' = n + 3 := ⟨depth' - 3, by omega⟩
    have isNamed : TermReads readGrammar (depth' + 1) 3 (one 9) [terminalToken terminal]
        (terminalTree terminal) ([mark ";"] ++ rest) :=
      .once rfl rfl (.rule (by decide) (terminal_found isTerminal))
    have terms : SeqReads readGrammar (depth' + 1) 3
        [word "alias", one 10, word "::=", one 9, word ";"] _ _ rest :=
      .cons word_found (.cons (name_held name (by decide)) (.cons word_found (.cons isNamed
        (.one word_found))))
    have selected : Along.selects readGrammar (Text.quote "alias") 2 1 1 := by decide
    exact .alternative rfl rfl rfl (Along.selects_mono (by omega) selected) (.one (.once rfl rfl
      (.rule (by decide) (.only rfl terms))))

end

end

/-- **The tokens of declarations** are those of one sentence, which has their tree. -/
theorem parseTokens_sourceOf {ds : List Declaration} (written : ∀ d ∈ ds, d.Written) :
    readGrammar.parseTokens (ds.flatMap Declaration.tokens) = .ok (treeOf ds) := by
  obtain ⟨depth, least, found⟩ := exists_depth 3 fun d mem => declaration_found (written d mem)
  have refused : Along.refusesAfter readGrammar none 3 0 (.rule 1) := by decide
  have solid : ∀ d ∈ ds, d.tokens ≠ [] := fun d _ => by
    cases d <;> exact List.cons_ne_nil _ _
  refine Grammar.parseTokens_of_ruleReads (.only rfl (.one (.star rfl (fun d mem rest => ?_) solid
    (Along.refusesAfter_mono least refused))))
  exact .rule (by decide) (found d mem depth (Nat.le_refl _) rest)

/-- **The source of declarations is read** as their tree, up to where the tokens stand. -/
theorem parse_sourceOf {ds : List Declaration} (written : ∀ d ∈ ds, d.Written) :
    ∃ t, parse (sourceOf ds) = .ok t ∧ t.unplaced = (treeOf ds).unplaced := by
  obtain ⟨ts, cut, agree⟩ := tokenize_sourceOf written
  obtain ⟨t, parsed, same⟩ :=
    Grammar.parseTokens_agrees (forall₂_agrees_iff.1 agree) (parseTokens_sourceOf written)
  have vocabulary : readGrammar.vocabulary = lexicon.vocabulary := rfl
  refine ⟨t, ?_, same.symm⟩
  rw [parse, grammar?_eq]
  exact (Grammar.parse_eq_ok vocabulary).2 ⟨ts, cut, parsed⟩

end Xbnf

end Polyglot
