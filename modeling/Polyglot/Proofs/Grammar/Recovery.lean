import Mathlib.Data.List.Induction
import Polyglot.Proofs.Grammar.Reading
import Polyglot.Proofs.Success

/-!
# Written declarations are what is read

The grammar that is read in the source of declarations is the one that is built from these
declarations with a vocabulary of what they use (`Xbnf.load_sourceOf`). The tree that is read
is walked twice. Neither walk looks at where a token stands but to say where an error is, so
both may be followed on the tree that was told by the declarations: the first finds the
terminals in the order in which they are used (`Xbnf.takeVocabulary_treeOf`), the second finds
the declarations again (`Xbnf.declarationsOf_treeOf`).
-/

namespace Polyglot

open Lexicon (Shape mark nameToken textToken)

/-! ## Terminals -/

/-- The terminals in what a phrase asks for, from those in the phrases of a group. -/
def Atom.terminals : Atom (List String) → List String
  | rule _ => []
  | terminal name => [name]
  | group alternatives => alternatives.flatMap List.flatten

/-- The terminals in a phrase, in the order in which they are used. -/
def Phrase.terminals : Phrase → List String := fold fun atom _ _ => atom.terminals

theorem Phrase.terminals_group (alternatives : List (List Phrase)) (multiplicity : Multiplicity)
    (label : Option String) :
    (group alternatives multiplicity label).terminals
      = alternatives.flatMap (·.flatMap terminals) := by
  rw [terminals, fold_group, Atom.terminals, List.flatMap_map]
  rfl

/-- The terminals in a declaration, in the order in which they are used. -/
def Declaration.terminals : Declaration → List String
  | rule _ alternatives => alternatives.flatMap (·.flatMap Phrase.terminals)
  | aliasOf _ terminal => [terminal]

namespace Xbnf

/-- The entry for a terminal: that of an exact text, or a builtin one. -/
def entryFor? (terminal : String) : Option Entry :=
  match LiteralRule.string.value? terminal with
  | some (.str text) => some (.exact text)
  | _ => builtinEntries.find? (·.name == terminal)

/-- The vocabulary with the entries for terminals, in the order in which they first appear. -/
def vocabularyOf (terminals : List String) : Vocabulary :=
  ⟨terminals.eraseDups.filterMap entryFor?, Vocabulary.blank.ignored⟩

/-- The vocabulary with an entry for each exact text and each builtin name that declarations use,
in the order in which they first appear. -/
def vocabularyFor (ds : List Declaration) : Vocabulary :=
  vocabularyOf (ds.flatMap Declaration.terminals)

/-! ## Places -/

theorem firstToken_unplaced (t : Tree) : t.unplaced.children.head?.bind Tree.token?
    = (t.children.head?.bind Tree.token?).map Token.unplaced := by
  rw [Tree.children_unplaced, List.head?_map]
  cases t.children.head? <;> simp

theorem takeTerminal_unplaced (v : Vocabulary) (t : Tree) :
    (takeTerminal v t.unplaced).toOption = (takeTerminal v t).toOption := by
  unfold takeTerminal
  rw [Tree.choice?_unplaced, firstToken_unplaced]
  cases t.children.head?.bind Tree.token? with
  | none => rcases t.choice? with _ | _ | choice <;> rfl
  | some token =>
    rcases t.choice? with _ | _ | choice
    · rfl
    · simp only [Option.map_some, Token.str?_unplaced]
      cases token.str? <;> rfl
    · rfl

theorem takeIgnored_unplaced (v : Vocabulary) (t : Tree) :
    (takeIgnored v t.unplaced).toOption = (takeIgnored v t).toOption := by
  have pattern : (t.unplaced.children[1]?.bind Tree.token?).bind Token.str?
      = (t.children[1]?.bind Tree.token?).bind Token.str? := by
    rw [Tree.children_unplaced, List.getElem?_map]
    cases t.children[1]? <;> simp [Option.bind_map, Function.comp_def]
  unfold takeIgnored
  rw [pattern]
  cases (t.children[1]?.bind Tree.token?).bind Token.str? <;> rfl

mutual

/-- What a written grammar asks for does not depend on where its tokens stand. -/
theorem takeVocabulary_unplaced (v : Vocabulary) (t : Tree) :
    (takeVocabulary v t.unplaced).toOption = (takeVocabulary v t).toOption := by
  cases t with
  | leaf => rw [Tree.unplaced_leaf, takeVocabulary, takeVocabulary]
  | node name label choice children =>
    have whole := Tree.unplaced_node name label choice children
    rw [whole, takeVocabulary, takeVocabulary]
    rw [← whole]
    split
    · exact takeTerminal_unplaced v _
    split
    · exact takeIgnored_unplaced v _
    · exact takeVocabularies_unplaced v children

theorem takeVocabularies_unplaced (v : Vocabulary) (ts : List Tree) :
    (takeVocabularies v (ts.map Tree.unplaced)).toOption = (takeVocabularies v ts).toOption := by
  cases ts with
  | nil => rfl
  | cons t ts =>
    rw [List.map_cons, takeVocabularies, takeVocabularies, Except.toOption_bind,
      Except.toOption_bind, takeVocabulary_unplaced v t]
    exact congrArg (Option.bind _) (funext fun v => takeVocabularies_unplaced v ts)

end

theorem terminalName_unplaced (t : Tree) :
    (terminalName t.unplaced).toOption = (terminalName t).toOption := by
  unfold terminalName
  rw [Tree.choice?_unplaced, firstToken_unplaced]
  cases t.children.head?.bind Tree.token? with
  | none => rcases t.choice? with _ | _ | choice <;> rfl
  | some token =>
    rcases t.choice? with _ | _ | choice
    · rfl
    · simp only [Option.map_some, Token.str?_unplaced]
      cases token.str? <;> rfl
    · rfl

theorem assemble_unplaced (t : Tree) (found : List Piece) :
    (assemble t.unplaced found).toOption = (assemble t found).toOption := by
  unfold assemble
  rw [Tree.name_unplaced, Tree.text_unplaced]
  dsimp only
  -- what is missing is an error wherever it is missing
  split
  case h_3 | h_5 | h_11 => rfl
  case h_9 => rw [Except.toOption_map, Except.toOption_map, terminalName_unplaced]
  all_goals split <;> rfl

mutual

/-- What a written grammar stands for does not depend on where its tokens stand. -/
theorem pieces_unplaced (t : Tree) : (pieces t.unplaced).toOption = (pieces t).toOption := by
  cases t with
  | leaf => rw [Tree.unplaced_leaf, pieces, pieces]; rfl
  | node name label choice children =>
    have whole := Tree.unplaced_node name label choice children
    rw [whole, pieces, pieces, ← whole, Except.toOption_bind, Except.toOption_bind,
      piecesOfList_unplaced children]
    exact congrArg (Option.bind _) (funext fun found => assemble_unplaced _ found)

theorem piecesOfList_unplaced (ts : List Tree) :
    (piecesOfList (ts.map Tree.unplaced)).toOption = (piecesOfList ts).toOption := by
  cases ts with
  | nil => rfl
  | cons t ts =>
    simp only [List.map_cons, piecesOfList, Except.toOption_bind, pieces_unplaced t,
      piecesOfList_unplaced ts, Except.toOption_pure]

end

theorem declarationsOf_unplaced (t : Tree) :
    (declarationsOf t.unplaced).toOption = (declarationsOf t).toOption := by
  simp only [declarationsOf, Except.toOption_bind, pieces_unplaced t, Except.toOption_pure]

/-! ## The vocabulary -/

/-- The vocabulary with what a terminal asks for. -/
def hold (v : Vocabulary) (terminal : String) : Vocabulary :=
  ((entryFor? terminal).map v.add).getD v

theorem entryFor?_quote (text : String) : entryFor? (Text.quote text) = some (.exact text) := by
  have value : LiteralRule.string.value? (Text.quote text) = some (.str text) :=
    Lexicon.value?_quote text
  rw [entryFor?, value]

/-- What is no exact text is a builtin name, if anything. -/
theorem entryFor?_of_first {name : String} (first : name.toList.head? ≠ some '"') :
    entryFor? name = builtinEntries.find? (·.name == name) := by
  have outside : delimited? '"' name.toList = none := by
    unfold delimited?
    split
    · rfl
    · rename_i c rest list
      rw [list, List.head?_cons] at first
      exact if_neg fun both => first (congrArg some both.1)
  have value : LiteralRule.string.value? name = none := by
    rw [LiteralRule.value?, outside]
    rfl
  rw [entryFor?, value]

theorem IsTerminal.cases {name : String} (h : IsTerminal name) :
    (∃ text, name = Text.quote text) ∨ name.toList.head? ≠ some '"' := by
  rcases h with isText | rfl | isName
  · exact .inl isText
  · exact .inr (by decide)
  · exact .inr isName.first_ne_mark

theorem terminalChoice_of_first {name : String} (first : name.toList.head? ≠ some '"') :
    ∃ n, terminalChoice name = n + 1 := by
  rw [terminalChoice, if_neg first]
  split <;> exact ⟨_, rfl⟩

theorem takeTerminal_tree (v : Vocabulary) {name : String} (h : IsTerminal name) :
    takeTerminal v (terminalTree name) = .ok (hold v name) := by
  rcases h.cases with ⟨text, rfl⟩ | first
  · rw [hold, entryFor?_quote, terminalTree, terminalChoice_quote, terminalToken_quote, takeTerminal]
    simp only [Tree.choice?, Tree.children, List.head?_cons, Option.bind_some, Tree.ofToken,
      Tree.token?, Lexicon.str?_textToken, Option.map_some, Option.getD_some, Vocabulary.addExact]
  · obtain ⟨choice, isWord⟩ := terminalChoice_of_first first
    have taken : takeTerminal v (.node "terminal" none (some (choice + 1))
        [.ofToken (terminalToken name)])
          = .ok ((v.addBuiltin? (terminalToken name).lexeme).getD v) := rfl
    rw [terminalTree, isWord, taken, lexeme_terminalToken, hold, entryFor?_of_first first,
      Vocabulary.addBuiltin?]

theorem name_of_entryFor? {name : String} (h : IsTerminal name) {e : Entry}
    (found : entryFor? name = some e) : e.name = name := by
  rcases h.cases with ⟨text, rfl⟩ | first
  · rw [entryFor?_quote] at found
    obtain rfl := Option.some.inj found
    rfl
  · rw [entryFor?_of_first first] at found
    have named := List.find?_some found
    exact beq_iff_eq.1 named

theorem contains_vocabularyOf {names : List String} (terminals : ∀ name ∈ names, IsTerminal name)
    {name : String} (h : IsTerminal name) {e : Entry} (found : entryFor? name = some e) :
    (vocabularyOf names).contains name = decide (name ∈ names) := by
  rw [Vocabulary.contains, Bool.eq_iff_iff, List.any_eq_true, decide_eq_true_iff]
  constructor
  · rintro ⟨e', mem, named⟩
    obtain ⟨name', mem', found'⟩ := List.mem_filterMap.1 mem
    have mem'' := List.mem_eraseDups.1 mem'
    rwa [← beq_iff_eq.1 named, name_of_entryFor? (terminals name' mem'') found']
  · intro mem
    refine ⟨e, List.mem_filterMap.2 ⟨name, List.mem_eraseDups.2 mem, found⟩, ?_⟩
    exact beq_iff_eq.2 (name_of_entryFor? h found)

/-- An entry is put at the end for each terminal that did not appear before. -/
theorem foldl_hold {names : List String} (terminals : ∀ name ∈ names, IsTerminal name) :
    names.foldl hold .blank = vocabularyOf names := by
  induction names using List.reverseRecOn with
  | nil => rfl
  | append_singleton names name ih =>
    obtain ⟨earlier, last⟩ := List.forall_mem_append.1 terminals
    have isTerminal := last name (List.mem_singleton_self name)
    have names' : (names ++ [name]).eraseDups
        = names.eraseDups ++ if name ∈ names then [] else [name] := by
      rw [List.eraseDups_append]
      by_cases seen : name ∈ names <;> simp [List.removeAll, seen, List.eraseDups_cons]
    rw [List.foldl_append, ih earlier, List.foldl_cons, List.foldl_nil, hold]
    conv_rhs => rw [vocabularyOf, names', List.filterMap_append]
    cases found : entryFor? name with
    | none =>
      have nothing : (if name ∈ names then [] else [name]).filterMap entryFor? = [] := by
        split <;> simp [found]
      rw [nothing, List.append_nil]
      rfl
    | some e =>
      rw [Option.map_some, Option.getD_some, Vocabulary.add, name_of_entryFor? isTerminal found,
        contains_vocabularyOf earlier isTerminal found]
      by_cases seen : name ∈ names
      · rw [if_pos (decide_eq_true seen), if_pos seen, List.filterMap_nil, List.append_nil]
        rfl
      · simp only [seen, decide_false, Bool.false_eq_true, if_false, List.filterMap_cons, found,
          List.filterMap_nil]
        rfl

/-- Whether a tree asks for terminals, one after the other, and nothing is wrong with it. -/
def Takes (t : Tree) (names : List String) : Prop :=
  ∀ v, takeVocabulary v t = .ok (names.foldl hold v)

/-- Whether trees ask for terminals, one after the other, and nothing is wrong with them. -/
def TakesAll (ts : List Tree) (names : List String) : Prop :=
  ∀ v, takeVocabularies v ts = .ok (names.foldl hold v)

section

variable {α : Type} {treeOf : α → Tree} {namesOf : α → List String}

theorem Takes.token (t : Token) : Takes (.ofToken t) [] := fun v => by
  rw [Tree.ofToken, takeVocabulary]
  rfl

theorem TakesAll.nil : TakesAll [] [] := fun _ => rfl

theorem TakesAll.cons {t : Tree} {ts : List Tree} {names others : List String} (first : Takes t names)
    (rest : TakesAll ts others) : TakesAll (t :: ts) (names ++ others) := fun v => by
  rw [takeVocabularies, first v, List.foldl_append, ← rest]
  rfl

theorem TakesAll.single {t : Tree} {names : List String} (only : Takes t names) :
    TakesAll [t] names := by
  have all := TakesAll.cons only .nil
  rwa [List.append_nil] at all

theorem TakesAll.map {as : List α} (each : ∀ a ∈ as, Takes (treeOf a) (namesOf a)) :
    TakesAll (as.map treeOf) (as.flatMap namesOf) := by
  induction as with
  | nil => exact .nil
  | cons a as ih =>
    obtain ⟨first, others⟩ := List.forall_mem_cons.1 each
    exact .cons first (ih others)

theorem Takes.node {name : String} {label : Option String} {choice : Option Nat} {ts : List Tree}
    {names : List String} (below : TakesAll ts names) (other : (name == "terminal") = false)
    (noPattern : (name == "ignore_rule") = false) : Takes (.node name label choice ts) names := fun v => by
  rw [takeVocabulary, other, noPattern]
  exact below v

theorem takes_name (name : String) : Takes (nameTree name) [] :=
  .node (.cons (.token _) (.cons (.token _) (.single (.token _)))) rfl rfl

theorem takes_terminal {name : String} (h : IsTerminal name) : Takes (terminalTree name) [name] :=
  fun v => by
    have taken := takeTerminal_tree v h
    rwa [terminalTree] at taken ⊢

theorem takes_expression {as : List α} (each : ∀ a ∈ as, Takes (treeOf a) (namesOf a)) :
    Takes (expressionTree (as.map treeOf)) (as.flatMap namesOf) :=
  .node (.single (.node (.map each) rfl rfl)) rfl rfl

theorem takes_body {alternatives : List (List α)}
    (each : ∀ as ∈ alternatives, ∀ a ∈ as, Takes (treeOf a) (namesOf a)) :
    Takes (bodyTree (alternatives.map (·.map treeOf))) (alternatives.flatMap (·.flatMap namesOf)) := by
  cases alternatives with
  | nil => exact .node .nil rfl rfl
  | cons first others =>
    obtain ⟨firstEach, otherEach⟩ := List.forall_mem_cons.1 each
    have more : TakesAll (others.map fun as => .node "body:0" none (some 0)
        [.ofToken (mark "|"), expressionTree (as.map treeOf)])
          (others.flatMap fun as => as.flatMap namesOf) :=
      .map fun as mem => .node (.cons (.token _) (.single (takes_expression (otherEach as mem)))) rfl rfl
    rw [bodyTree_cons]
    exact .node (.cons (takes_expression firstEach) (.single (.node more rfl rfl))) rfl rfl

theorem takes_label (label : Option String) : Takes (labelTree label) [] := by
  cases label with
  | none => exact .node .nil rfl rfl
  | some l =>
    exact .node (.single (.node (.cons (.token _) (.single (.token _))) rfl rfl)) rfl rfl

theorem takes_multiplicity (m : Multiplicity) : Takes (multiplicityTree m) [] := by
  cases m with
  | one => exact .node .nil rfl rfl
  | optional | star | plus => exact .node (.single (.node (.single (.token _)) rfl rfl)) rfl rfl

/-- **A phrase asks for its terminals**. -/
theorem takes_phrase {p : Phrase} (written : p.Written) : Takes (phraseTree p) p.terminals := by
  have decorated {atom : Atom Tree} {names : List String} {multiplicity : Multiplicity}
      {label : Option String} (h : Takes (atomTree atom) names) :
      Takes (.node "term" none (some 0)
        [labelTree label, atomTree atom, multiplicityTree multiplicity]) names := by
    have all := TakesAll.cons (takes_label label) (.cons h (.single (takes_multiplicity multiplicity)))
    rw [List.nil_append, List.append_nil] at all
    exact .node all rfl rfl
  induction written with
  | @rule name => exact decorated (.node (.single (takes_name name)) rfl rfl)
  | terminal named => exact decorated (.node (.single (takes_terminal named)) rfl rfl)
  | group solid solids each labeled ih =>
    rw [Phrase.terminals_group, phraseTree, Phrase.fold_group]
    refine decorated ?_
    have all := TakesAll.cons (.token (mark "(")) (.cons (takes_body ih) (.single (.token (mark ")"))))
    rw [List.nil_append, List.append_nil] at all
    exact .node all rfl rfl

theorem takes_declaration {d : Declaration} (written : d.Written) :
    Takes (declarationTree d) d.terminals := by
  cases d with
  | rule name alternatives =>
    obtain ⟨-, -, each⟩ := written
    have all := TakesAll.cons (takes_name name) (.cons (.token (mark "::=")) (.cons
      (takes_body fun as mem p mem' => takes_phrase ((each as mem).2 p mem')) (.single (.token (mark ";")))))
    rw [List.nil_append, List.nil_append, List.append_nil] at all
    exact .node (.single (.node all rfl rfl)) rfl rfl
  | aliasOf name terminal =>
    obtain ⟨-, isTerminal⟩ := written
    exact .node (.single (.node (.cons (.token _) (.cons (takes_name name) (.cons (.token _) (.cons
      (takes_terminal isTerminal) (.single (.token _)))))) rfl rfl)) rfl rfl

end

theorem isTerminal_of_mem {p : Phrase} (written : p.Written) {name : String}
    (mem : name ∈ p.terminals) : IsTerminal name := by
  induction written with
  | rule => cases mem
  | terminal named =>
    obtain rfl := List.mem_singleton.1 mem
    exact named
  | group solid solids each labeled ih =>
    rw [Phrase.terminals_group] at mem
    obtain ⟨as, mem, mem'⟩ := List.mem_flatMap.1 mem
    obtain ⟨p, mem', mem''⟩ := List.mem_flatMap.1 mem'
    exact ih as mem p mem' mem''

theorem isTerminal_of_mem_declaration {d : Declaration} (written : d.Written) {name : String}
    (mem : name ∈ d.terminals) : IsTerminal name := by
  cases d with
  | rule _ alternatives =>
    obtain ⟨as, mem, mem'⟩ := List.mem_flatMap.1 mem
    obtain ⟨p, mem', mem''⟩ := List.mem_flatMap.1 mem'
    exact isTerminal_of_mem ((written.2.2 as mem).2 p mem') mem''
  | aliasOf _ terminal =>
    obtain rfl := List.mem_singleton.1 mem
    exact written.2

/-- **The vocabulary** that the tree of declarations asks for. -/
theorem takeVocabulary_treeOf {ds : List Declaration} (written : ∀ d ∈ ds, d.Written) :
    takeVocabulary .blank (treeOf ds) = .ok (vocabularyFor ds) := by
  have takes : Takes (treeOf ds) (ds.flatMap Declaration.terminals) :=
    .node (.single (.node (.map fun d mem => takes_declaration (written d mem)) rfl rfl)) rfl rfl
  have terminals : ∀ name ∈ ds.flatMap Declaration.terminals, IsTerminal name := by
    intro name mem
    obtain ⟨d, mem, mem'⟩ := List.mem_flatMap.1 mem
    exact isTerminal_of_mem_declaration (written d mem) mem'
  rw [takes, foldl_hold terminals, vocabularyFor]

/-! ## The declarations -/

section

variable {α : Type} {treeOf : α → Tree} {pieceOf : α → Piece} {found more : List Piece}

theorem piecesOfList_cons {t : Tree} {ts : List Tree} (first : pieces t = .ok found)
    (rest : piecesOfList ts = .ok more) : piecesOfList (t :: ts) = .ok (found ++ more) := by
  rw [piecesOfList, first, rest]
  rfl

theorem piecesOfList_single {t : Tree} (only : pieces t = .ok found) :
    piecesOfList [t] = .ok found := by
  have none : piecesOfList [] = .ok [] := rfl
  have all := piecesOfList_cons only none
  rwa [List.append_nil] at all

theorem piecesOfList_map {as : List α} (each : ∀ a ∈ as, pieces (treeOf a) = .ok [pieceOf a]) :
    piecesOfList (as.map treeOf) = .ok (as.map pieceOf) := by
  induction as with
  | nil => rfl
  | cons a as ih =>
    obtain ⟨first, others⟩ := List.forall_mem_cons.1 each
    exact piecesOfList_cons first (ih others)

theorem pieces_node {name : String} {label : Option String} {choice : Option Nat} {ts : List Tree}
    (below : piecesOfList ts = .ok found) :
    pieces (.node name label choice ts) = assemble (.node name label choice ts) found := by
  rw [pieces, below]
  rfl

theorem pieces_mark (sign : String) : pieces (.ofToken (mark sign)) = .ok [] := by
  have other : ((mark sign).type == "identifier") = false := by
    refine beq_eq_false_iff_ne.2 fun same => ?_
    have first := toList_head?_quote sign
    have same : Text.quote sign = "identifier" := same
    rw [same] at first
    exact absurd first (by decide)
  rw [Tree.ofToken, pieces, other]
  rfl

theorem pieces_nameToken (name : String) :
    pieces (.ofToken (nameToken name)) = .ok [.identifier name] := rfl

theorem pieces_name (name : String) : pieces (nameTree name) = .ok [.name name] :=
  pieces_node (piecesOfList_cons (pieces_mark "<") (piecesOfList_cons (pieces_nameToken name)
    (piecesOfList_single (pieces_mark ">"))))

theorem terminalName_tree {name : String} (h : IsTerminal name) :
    terminalName (terminalTree name) = .ok name := by
  rcases h.cases with ⟨text, rfl⟩ | first
  · rw [terminalTree, terminalChoice_quote, terminalToken_quote, terminalName]
    simp only [Tree.choice?, Tree.children, List.head?_cons, Option.bind_some, Tree.ofToken,
      Tree.token?, Lexicon.str?_textToken]
  · have named : terminalName (terminalTree name) = .ok (terminalToken name).lexeme := by
      obtain ⟨choice, isWord⟩ := terminalChoice_of_first first
      rw [terminalTree, isWord]
      rfl
    rw [named, lexeme_terminalToken]

theorem pieces_terminal {name : String} (h : IsTerminal name) :
    pieces (terminalTree name) = .ok [.terminal name] := by
  have named := terminalName_tree h
  have below : piecesOfList (terminalTree name).children = .ok _ :=
    piecesOfList_single (by rw [Tree.ofToken, pieces])
  refine (pieces_node below).trans ?_
  show (terminalName (terminalTree name)).map _ = _
  rw [named]
  rfl

theorem assemble_expression {label : Option String} {choice : Option Nat} {ts : List Tree}
    {phrases : List Phrase} :
    assemble (.node "expression" label choice ts) (phrases.map .term) = .ok [.expression phrases] := by
  simp [assemble, Tree.name, List.filterMap_map]

theorem pieces_expression {phrases : List Phrase}
    (each : ∀ p ∈ phrases, pieces (phraseTree p) = .ok [.term p]) :
    pieces (expressionTree (phrases.map phraseTree)) = .ok [.expression phrases] := by
  have terms : pieces (.node "term+" none none (phrases.map phraseTree)) = .ok (phrases.map .term) :=
    pieces_node (piecesOfList_map each)
  exact (pieces_node (piecesOfList_single terms)).trans assemble_expression

theorem assemble_body {label : Option String} {choice : Option Nat} {ts : List Tree}
    {alternatives : List (List Phrase)} (solid : alternatives ≠ []) :
    assemble (.node "body" label choice ts) (alternatives.map .expression)
      = .ok [.body alternatives] := by
  obtain ⟨first, others, rfl⟩ := List.exists_cons_of_ne_nil solid
  simp [assemble, Tree.name, List.filterMap_map]

theorem pieces_body {alternatives : List (List Phrase)} (solid : alternatives ≠ [])
    (each : ∀ phrases ∈ alternatives, ∀ p ∈ phrases, pieces (phraseTree p) = .ok [.term p]) :
    pieces (bodyTree (alternatives.map (·.map phraseTree))) = .ok [.body alternatives] := by
  obtain ⟨first, others, rfl⟩ := List.exists_cons_of_ne_nil solid
  obtain ⟨firstEach, otherEach⟩ := List.forall_mem_cons.1 each
  have more : pieces (.node "body:0*" none none (others.map fun phrases =>
      .node "body:0" none (some 0) [.ofToken (mark "|"), expressionTree (phrases.map phraseTree)]))
        = .ok (others.map .expression) :=
    pieces_node (piecesOfList_map fun phrases mem => pieces_node (piecesOfList_cons (pieces_mark "|")
      (piecesOfList_single (pieces_expression (otherEach phrases mem)))))
  rw [bodyTree_cons]
  refine (pieces_node (piecesOfList_cons (pieces_expression firstEach)
    (piecesOfList_single more))).trans ?_
  rw [List.singleton_append, ← List.map_cons]
  exact assemble_body solid

theorem pieces_label (label : Option String) :
    pieces (labelTree label) = .ok (label.toList.map .identifier) := by
  cases label with
  | none => rfl
  | some l =>
    exact pieces_node (piecesOfList_single (pieces_node
      (piecesOfList_cons (pieces_nameToken l) (piecesOfList_single (pieces_mark "=")))))

theorem pieces_multiplicity (m : Multiplicity) :
    pieces (multiplicityTree m) = .ok (if m = .one then [] else [.multiplicity m]) := by
  have sign (choice : Nat) (solid : (mark m.suffix).isEmpty = false) :
      pieces (.node "multiplicity?" none none
        [.node "multiplicity" none (some choice) [.ofToken (mark m.suffix)]])
          = .ok [.multiplicity m] := by
    have text : (Tree.node "multiplicity" none (some choice) [.ofToken (mark m.suffix)]).text
        = m.suffix :=
      Tree.text_of_tokens (by simp [Tree.ofToken]) solid
    refine pieces_node (piecesOfList_single ((pieces_node (piecesOfList_single
      (pieces_mark m.suffix))).trans ?_))
    simp only [assemble, Tree.name, text, Multiplicity.ofSuffix?_suffix, Option.map_some]
  cases m with
  | one => rfl
  | optional | star | plus => exact sign _ rfl

theorem pieces_term {atom : Atom Tree} {bare : Phrase} (h : pieces (atomTree atom) = .ok [.atom bare])
    (multiplicity : Multiplicity) (label : Option String) :
    pieces (.node "term" none (some 0)
      [labelTree label, atomTree atom, multiplicityTree multiplicity])
        = .ok [.term (bare.decorate multiplicity label)] := by
  refine (pieces_node (piecesOfList_cons (pieces_label label) (piecesOfList_cons h
    (piecesOfList_single (pieces_multiplicity multiplicity))))).trans ?_
  cases label <;> cases multiplicity <;> rfl

/-- **The tree of a phrase** stands for the phrase. -/
theorem pieces_phrase {p : Phrase} (written : p.Written) : pieces (phraseTree p) = .ok [.term p] := by
  induction written with
  | @rule name multiplicity label =>
    have atom : pieces (atomTree (.rule name)) = .ok [.atom (.ofRule name)] :=
      pieces_node (piecesOfList_single (pieces_name name))
    exact pieces_term atom multiplicity label
  | @terminal name multiplicity label named =>
    have atom : pieces (atomTree (.terminal name)) = .ok [.atom (.ofTerminal name)] :=
      pieces_node (piecesOfList_single (pieces_terminal named))
    exact pieces_term atom multiplicity label
  | @group alternatives multiplicity label solid solids each labeled ih =>
    have atom : pieces (atomTree (.group (alternatives.map (·.map phraseTree))))
        = .ok [.atom (.ofGroup alternatives)] :=
      pieces_node (piecesOfList_cons (pieces_mark "(")
        (piecesOfList_cons (pieces_body solid ih) (piecesOfList_single (pieces_mark ")"))))
    rw [phraseTree, Phrase.fold_group]
    exact pieces_term atom multiplicity label

theorem pieces_declaration {d : Declaration} (written : d.Written) :
    pieces (declarationTree d) = .ok [.declaration d] := by
  cases d with
  | rule name alternatives =>
    obtain ⟨-, solid, each⟩ := written
    have body := pieces_body solid fun phrases mem p mem' => pieces_phrase ((each phrases mem).2 p mem')
    exact pieces_node (piecesOfList_single (pieces_node (piecesOfList_cons (pieces_name name)
      (piecesOfList_cons (pieces_mark "::=") (piecesOfList_cons body
        (piecesOfList_single (pieces_mark ";")))))))
  | aliasOf name terminal =>
    obtain ⟨-, isTerminal⟩ := written
    exact pieces_node (piecesOfList_single (pieces_node (piecesOfList_cons (pieces_mark "alias")
      (piecesOfList_cons (pieces_name name) (piecesOfList_cons (pieces_mark "::=")
        (piecesOfList_cons (pieces_terminal isTerminal) (piecesOfList_single (pieces_mark ";"))))))))

end

/-- **The declarations** that their tree stands for. -/
theorem declarationsOf_treeOf {ds : List Declaration} (written : ∀ d ∈ ds, d.Written) :
    declarationsOf (treeOf ds) = .ok ds := by
  have all : pieces (treeOf ds) = .ok (ds.map .declaration) :=
    pieces_node (piecesOfList_single (pieces_node
      (piecesOfList_map fun d mem => pieces_declaration (written d mem))))
  rw [declarationsOf, all]
  show Except.ok (List.filterMap _ _) = _
  rw [List.filterMap_map]
  simp

/-! ## The grammar -/

/-- **What is read is what was written.** The grammar that is read in the source of declarations
is the one that is built from them with a vocabulary of the exact texts and the builtin names they
use, and if none can be built the error is the same. -/
theorem load_sourceOf {ds : List Declaration} (written : ∀ d ∈ ds, d.Written) (name : String) :
    load name (sourceOf ds) = (Grammar.build name (vocabularyFor ds) ds).mapError .grammar := by
  obtain ⟨t, parsed, same⟩ := parse_sourceOf written
  have vocabulary : takeVocabulary .blank t = .ok (vocabularyFor ds) := by
    rw [← Except.toOption_eq_some, ← takeVocabulary_unplaced, same, takeVocabulary_unplaced,
      takeVocabulary_treeOf written, Except.toOption_ok]
  have declarations : declarationsOf t = .ok ds := by
    rw [← Except.toOption_eq_some, ← declarationsOf_unplaced, same, declarationsOf_unplaced,
      declarationsOf_treeOf written, Except.toOption_ok]
  rw [load, parsed]
  show Except.mapError _ (takeVocabulary .blank t >>= fun vocabulary => _) = _
  rw [vocabulary]
  show Except.mapError _ (declarationsOf t >>= fun declarations => _) = _
  rw [declarations]
  rfl

/-- Declarations with a labeled group in a group, and with an exact text that holds the signs
of quotes, escapes, comments and ends of declarations. -/
def nestedDeclarations : List Declaration :=
  [ .rule "list" [[.group
      [[.terminal "identifier" .one (some "first"), .group [[.terminal (Text.quote "\"\\#;") .one none,
        .rule "list" .optional none], [.rule "item" .plus none]] .star (some "more")],
       [.terminal "$" .one none]] .one none]],
    .aliasOf "item" (Text.quote "\"\\#;") ]

theorem load_sourceOf_nested :
    (∀ d ∈ nestedDeclarations, d.Written)
      ∧ sourceOf nestedDeclarations
        = "<list> ::= (first=identifier more=(\"\\\"\\\\#;\" <list>? | <item>+)* | $);\n"
          ++ "alias <item> ::= \"\\\"\\\\#;\";"
      ∧ load "list" (sourceOf nestedDeclarations)
        = (Grammar.build "list" (vocabularyFor nestedDeclarations) nestedDeclarations).mapError .grammar
      ∧ (load "list" (sourceOf nestedDeclarations)).toOption.map
          (fun g => (g.vocabulary.entries.map Entry.name, g.rules.toList.map Rule.name))
        = some (["identifier", Text.quote "\"\\#;"],
          ["list", "item", "list:0", "list~0", "list:1", "list~1"]) := by
  have named : IsName "list" ∧ IsName "item" ∧ IsName "identifier" ∧ IsName "first" ∧ IsName "more" := by
    refine ⟨?_, ?_, ?_, ?_, ?_⟩ <;> exact ⟨by decide, _, _, rfl, by decide, List.all_eq_true.1 (by decide)⟩
  obtain ⟨list, item, identifier, first, more⟩ := named
  have unlabeled : ∀ l ∈ (none : Option String), IsName l := fun _ absent => by cases absent
  have labeled {name : String} (h : IsName name) : ∀ l ∈ some name, IsName l := fun l same => by
    obtain rfl := Option.some.inj same
    exact h
  have text : IsTerminal (Text.quote "\"\\#;") := .inl ⟨_, rfl⟩
  have inner : Phrase.Written (.group [[.terminal (Text.quote "\"\\#;") .one none,
      .rule "list" .optional none], [.rule "item" .plus none]] .star (some "more")) := by
    refine .group (by decide) (by decide) ?_ (labeled more)
    simp only [List.forall_mem_cons]
    exact ⟨⟨.terminal text unlabeled, .rule list unlabeled, List.forall_mem_nil _⟩,
      ⟨.rule item unlabeled, List.forall_mem_nil _⟩, List.forall_mem_nil _⟩
  have written : ∀ d ∈ nestedDeclarations, d.Written := by
    rw [nestedDeclarations]
    simp only [List.forall_mem_cons]
    refine ⟨⟨list, by decide, ?_⟩, ⟨item, text⟩, List.forall_mem_nil _⟩
    simp only [List.forall_mem_cons]
    refine ⟨⟨by decide, .group (by decide) (by decide) ?_ unlabeled, List.forall_mem_nil _⟩,
      List.forall_mem_nil _⟩
    simp only [List.forall_mem_cons]
    exact ⟨⟨.terminal (.inr (.inr identifier)) (labeled first), inner, List.forall_mem_nil _⟩,
      ⟨.terminal (.inr (.inl rfl)) unlabeled, List.forall_mem_nil _⟩, List.forall_mem_nil _⟩
  have loaded := load_sourceOf written "list"
  refine ⟨written, ?_, loaded, ?_⟩
  · decide +kernel
  · rw [loaded]
    decide +kernel

end Xbnf

end Polyglot
