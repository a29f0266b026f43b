import Polyglot.Proofs.Assembly.Recovery
import Polyglot.Proofs.B.Contents
import Polyglot.Proofs.Expr.Programs

/-!
# The program of an expression in its typed form

Shaking takes the trees of statements and of repetitions out of the tree of the program, and what
is read from the rest is a function with the assignments one after the other and then the return
(`Outline.program_eq`). Nothing else is assigned in it, and there are no texts, as the sums are
counterparts of expressions (`Corresponds.settles`).
-/

namespace Polyglot.Expr

open Lexicon (mark)

/-! ## What shaking leaves of sums -/

/-- What shaking leaves of a sum of B. -/
def shaken (sum : Tree) : Tree := (B.language.shaker.shakeInner sum).headD default

/-- Whether shaking leaves one tree of a sum, in which nothing is assigned and no text stands. -/
structure Settles (sum : Tree) : Prop where
  /-- One tree is left. -/
  single : B.language.shaker.shakeInner sum = [shaken sum]
  /-- Nothing is assigned. -/
  assigned : B.assignedIn (shaken sum) = []
  /-- There are no texts. -/
  texts : B.textsIn (shaken sum) = []

/-- The expression that is read from a sum. -/
def summand (sum : Tree) : B.Expression := (B.Reading.ofTree (shaken sum)).expression

theorem shakeList_append (s : Shake) (ts us : List Tree) :
    s.shakeList (ts ++ us) = s.shakeList ts ++ s.shakeList us := by
  induction ts with
  | nil => rw [List.nil_append, Shake.shakeList, List.nil_append]
  | cons t ts ih => rw [List.cons_append, Shake.shakeList, ih, Shake.shakeList, List.append_assoc]

theorem shakeInner_token (s : Shake) (label : Option String) (token : Token) :
    s.shakeInner ((Tree.ofToken token).withLabel label) = [(Tree.ofToken token).withLabel label] := by
  rw [Tree.ofToken, Tree.withLabel, Shake.shakeInner]

theorem shakeInner_mark (s : Shake) (token : Token) :
    s.shakeInner (.ofToken token) = [.ofToken token] := shakeInner_token s none token

theorem assignedIn_leveled (label : Option String) (sum : Tree) :
    B.assignedIn (leveled label sum) = B.assignedIn sum := by
  simp [leveled, B.assignedIn, B.assignedInList]

theorem quote_ne (text : String) {other : String} (ne : other.toList.head? ≠ some '"') :
    Text.quote text ≠ other := by
  rintro rfl
  rw [Text.quote, String.toList_ofList] at ne
  exact ne rfl

/-- A token that is asked for by its text is no text literal. -/
theorem textsIn_mark {text : String} {token : Token} (is : token.unplaced = mark text) :
    B.textsIn (.ofToken token) = [] := by
  have other : Text.quote text ≠ "string" := quote_ne text (by decide)
  rw [Tree.ofToken, type_of_mark is, B.textsIn, if_neg fun eq => other (beq_iff_eq.1 eq)]

theorem textsIn_name {label : Option String} {token : Token} (is : token.type = "identifier") :
    B.textsIn ((Tree.ofToken token).withLabel label) = [] := by
  rw [Tree.ofToken, Tree.withLabel, is, B.textsIn]
  rfl

theorem textsIn_leveled (label : Option String) (sum : Tree) :
    B.textsIn (leveled label sum) = B.textsIn sum := by
  simp [leveled, B.textsIn, B.textsInList]

/-- Whether nothing is assigned in trees and no text stands in them. -/
structure Quiet (ts : List Tree) : Prop where
  /-- Nothing is assigned. -/
  assigned : ts.flatMap B.assignedIn = []
  /-- There are no texts. -/
  texts : ts.flatMap B.textsIn = []

namespace Quiet

variable {ts us : List Tree}

theorem append (h : Quiet ts) (h' : Quiet us) : Quiet (ts ++ us) :=
  ⟨by rw [List.flatMap_append, h.assigned, h'.assigned, List.append_nil],
    by rw [List.flatMap_append, h.texts, h'.texts, List.append_nil]⟩

theorem node {name : String} (label : Option String) (choice : Option Nat)
    (named : name ≠ "assignment" ∧ name ≠ "string") (h : Quiet ts) :
    Quiet [.node name label choice ts] := by
  constructor
  · rw [List.flatMap_singleton, B.assignedIn, if_neg fun eq => named.1 (beq_iff_eq.1 eq),
      B.assignedInList_eq, h.assigned]
  · rw [List.flatMap_singleton, B.textsIn_node named.2, h.texts]

theorem token {text : String} {token : Token} (is : token.unplaced = mark text) :
    Quiet [.ofToken token] := by
  refine ⟨?_, by rw [List.flatMap_singleton, textsIn_mark is]⟩
  rw [List.flatMap_singleton, Tree.ofToken, B.assignedIn]

theorem flatMap {α : Type} {f : α → List Tree} {as : List α} (each : ∀ a ∈ as, Quiet (f a)) :
    Quiet (as.flatMap f) := by
  induction as with
  | nil => exact ⟨rfl, rfl⟩
  | cons a as ih =>
    obtain ⟨first, others⟩ := List.forall_mem_cons.1 each
    rw [List.flatMap_cons]
    exact first.append (ih others)

end Quiet

/-- Nothing is assigned in the counterpart of an expression, and no text stands in it. -/
theorem Corresponds.quiet {names : List String} {level : Level} {t t' : Tree}
    (h : Corresponds names level t t') : Quiet (B.language.shaker.shakeInner t') := by
  induction h with
  | number | «variable» =>
    rw [shakenLeaf rfl (by decide) (by decide)]
    exact .node _ _ (by decide) ⟨rfl, rfl⟩
  | @group l l' r r' u u' opens closes inner ih =>
    obtain ⟨x, x', eq, eq', twins⟩ := inner.twins
    have shaken : B.language.shaker.shakeInner (wrapped u') = [leveled none x'] :=
      shakeInner_wrapped none eq'
    rw [shakeInner_plainTree rfl (by decide) (by decide), shakeList_around shaken]
    rw [eq'] at ih
    have between : Quiet [leveled none x'] :=
      .node _ _ (by decide) (.node _ _ (by decide) (.node _ _ (by decide) (.node _ _ (by decide) ih)))
    exact .node _ _ (by decide) (.append (.token opens.2) (.append between (.token closes.2)))
  | @negate t t' u u' minus operand ih =>
    rw [Shake.shakeInner_kept (by decide) rfl, Shake.shakeList, Shake.shakeInner_spliced (by decide)]
    simp only [Shake.shakeList, shakeInner_mark, List.append_nil]
    exact .node _ _ (by decide) (.append (.token minus.2) ih)
  | @chain c first first' links head signs operands ih ih' =>
    have kept : B.language.shaker.isSpliced c.name = false := by cases c <;> decide
    have named : c.name ≠ "assignment" ∧ c.name ≠ "string" := by cases c <;> decide
    rw [shakeInner_tree rfl kept, List.flatMap_map]
    refine .node _ _ named (ih.append (.flatMap fun k mem => ?_))
    exact .append (.token (signs k mem).2.2.2) (ih' k mem)

/-- Shaking leaves one tree of the counterpart of an expression. -/
theorem Corresponds.settles {names : List String} {level : Level} {t t' : Tree}
    (h : Corresponds names level t t') : Settles t' := by
  obtain ⟨x, x', eq, eq', twins⟩ := h.twins
  have is : shaken t' = x' := by rw [shaken, eq', List.headD_cons]
  have quiet := h.quiet
  rw [eq'] at quiet
  rw [← is] at eq' quiet
  exact ⟨eq', by simpa using quiet.assigned, by simpa using quiet.texts⟩

namespace Assigned

variable (a : Assigned)

/-- What shaking leaves of an assignment. -/
def shakenTree : Tree :=
  .node "assignment" none (some 0) [(Tree.ofToken a.target).withLabel (some "target"),
    .ofToken a.equals, leveled (some "value") (shaken a.value), .ofToken a.semicolon]

/-- The statement that is read from an assignment. -/
def statement : B.Statement := .assign a.target.lexeme (summand a.value)

theorem shakeInner_tree (settles : Settles a.value) :
    B.language.shaker.shakeInner a.tree = [a.shakenTree] := by
  rw [tree, Shake.shakeInner_spliced (by decide), Shake.shakeList,
    Shake.shakeInner_kept (by decide) rfl]
  simp only [Shake.shakeList, shakeInner_token, shakeInner_mark, shakeInner_wrapped _ settles.single,
    List.singleton_append, List.append_nil, shakenTree]

theorem ofTree_shakenTree : B.Statement.ofTree a.shakenTree = a.statement := by
  have target : (a.shakenTree.labeled? "target") = some ((Tree.ofToken a.target).withLabel (some "target")) :=
    rfl
  have value : a.shakenTree.labeled? "value" = some (leveled (some "value") (shaken a.value)) := rfl
  show B.Statement.assignment a.shakenTree = a.statement
  rw [B.Statement.assignment, target, value, statement]
  dsimp only
  rw [expression_leveled, summand, Tree.ofToken, Tree.withLabel, text_leaf]

theorem assignedIn_shakenTree : B.assignedIn a.shakenTree = [a.target.lexeme] := by
  show [((Tree.ofToken a.target).withLabel (some "target")).text] = _
  rw [Tree.ofToken, Tree.withLabel, text_leaf]

theorem textsIn_shakenTree (proper : a.Proper) (settles : Settles a.value) :
    B.textsIn a.shakenTree = [] := by
  rw [shakenTree, B.textsIn_node (by decide)]
  simp only [List.flatMap_cons, List.flatMap_nil, textsIn_name proper.target,
    textsIn_mark proper.equals, textsIn_leveled, settles.texts, textsIn_mark proper.semicolon,
    List.append_nil]

end Assigned

namespace Outline

variable (o : Outline)

/-- What shaking leaves of the last statement. -/
def shakenReturn : Tree :=
  .node "return" none (some 0)
    [.ofToken o.ret, leveled (some "value") (shaken o.value), .ofToken o.semicolon]

/-- What shaking leaves of the statements in brackets. -/
def shakenBlock : Tree :=
  .node "block" (some "body") (some 0) ([.ofToken o.first]
    ++ ((o.assigned.map Assigned.shakenTree ++ [o.shakenReturn]) ++ [.ofToken o.last]))

/-- What shaking leaves of the function. -/
def shakenFunction : Tree :=
  .node "function" none (some 0) [.ofToken o.keyword, (Tree.ofToken o.name).withLabel (some "name"),
    .ofToken o.opening, .ofToken o.closing, o.shakenBlock]

/-- What the function does. -/
def body : B.Statement :=
  .block (o.assigned.map Assigned.statement ++ [.ret (some (summand o.value))])

section

variable {o} (settles : Settles o.value) (each : ∀ a ∈ o.assigned, Settles a.value)
include settles

theorem shakeInner_returnTree : B.language.shaker.shakeInner o.returnTree = [o.shakenReturn] := by
  have value : B.language.shaker.shakeInner
      (.node "expression?" (some "value") none [wrapped o.value]) = [leveled (some "value") (shaken o.value)] := by
    have inner : B.language.shaker.shakeInner (wrapped o.value) = [leveled none (shaken o.value)] :=
      shakeInner_wrapped none settles.single
    have spliced : B.language.shaker.isSpliced "expression?" := by decide
    rw [Shake.shakeInner]
    simp only [Shake.shakeList, inner, spliced, ↓reduceIte]
    rfl
  rw [returnTree, Shake.shakeInner_spliced (by decide), Shake.shakeList,
    Shake.shakeInner_kept (by decide) rfl]
  simp only [Shake.shakeList, shakeInner_mark, value, List.singleton_append, List.append_nil,
    shakenReturn]

include each

theorem shakeInner_block :
    B.language.shaker.shakeInner (o.block.withLabel (some "body")) = [o.shakenBlock] := by
  have assignments : B.language.shaker.shakeList (o.assigned.map Assigned.tree)
      = o.assigned.map Assigned.shakenTree :=
    Assembly.shakeList_map fun a mem => a.shakeInner_tree (each a mem)
  have statements : B.language.shaker.shakeList o.statements
      = o.assigned.map Assigned.shakenTree ++ [o.shakenReturn] := by
    rw [Outline.statements, shakeList_append, assignments]
    simp only [Shake.shakeList, shakeInner_returnTree settles, List.append_nil]
  have several : B.language.shaker.isSpliced "statement*" := by decide
  have spliced : B.language.shaker.isSpliced "statement" := by decide
  have kept : B.language.shaker.isSpliced "block" = false := by decide
  rw [block, Tree.withLabel, Shake.shakeInner]
  simp only [Shake.shakeList, Shake.shakeInner_kept kept rfl, shakeInner_mark,
    Shake.shakeInner_spliced several, statements, spliced, ↓reduceIte, List.append_nil]
  rfl

theorem shake_tree :
    B.language.shake o.tree = .node "b" none (some 0) [o.shakenFunction] := by
  have several : B.language.shaker.isSpliced "function+" := by decide
  have optional : B.language.shaker.isSpliced "parameters?" := by decide
  have function : B.language.shaker.shakeInner o.function = [o.shakenFunction] := by
    rw [Outline.function, Shake.shakeInner_kept (by decide) rfl]
    simp only [Shake.shakeList, shakeInner_token, shakeInner_mark, Shake.shakeInner_spliced optional,
      shakeInner_block settles each, List.singleton_append, List.nil_append, shakenFunction]
  rw [Language.shake, tree, Shake.shake]
  simp only [Shake.shakeList, Shake.shakeInner_spliced several, function, List.append_nil]
  rfl

omit settles each in
/-- The statements in brackets are those of the trees in them that are no tokens. -/
theorem ofTree_block (label : Option String) (choice : Option Nat) (ts : List Tree) :
    B.Statement.ofTree (.node "block" label choice ts)
      = .block ((ts.filter fun t => !t.isLeaf).map B.Statement.ofTree) := by
  have parts : B.Statement.partsOf ts = ts.map fun t => (t, B.Statement.ofTree t) := by
    induction ts with
    | nil => rfl
    | cons t ts ih => rw [B.Statement.partsOf, ih, List.map_cons]
  rw [B.Statement.ofTree, parts]
  show B.Statement.block _ = _
  rw [List.filter_map, List.map_map]
  rfl

omit settles each in
theorem ofTree_shakenReturn : B.Statement.ofTree o.shakenReturn = .ret (some (summand o.value)) := by
  have value : o.shakenReturn.labeled? "value" = some (leveled (some "value") (shaken o.value)) := rfl
  show B.Statement.ret ((o.shakenReturn.labeled? "value").map fun v => (B.Reading.ofTree v).expression) = _
  rw [value, Option.map_some, expression_leveled, summand]

omit settles each in
theorem ofTree_shakenBlock : B.Statement.ofTree o.shakenBlock = o.body := by
  have inner : (o.assigned.map Assigned.shakenTree).filter (fun t => !t.isLeaf)
      = o.assigned.map Assigned.shakenTree :=
    List.filter_eq_self.2 (List.forall_mem_map.2 fun _ _ => rfl)
  have assignments : B.Statement.ofTree ∘ Assigned.shakenTree = Assigned.statement :=
    funext Assigned.ofTree_shakenTree
  rw [shakenBlock, ofTree_block, List.filter_append, List.filter_append, List.filter_append, inner,
    List.map_append, List.map_append, List.map_append, List.map_map, assignments]
  show B.Statement.block ([] ++ (_ ++ [B.Statement.ofTree o.shakenReturn] ++ [])) = _
  rw [ofTree_shakenReturn, List.append_nil, List.nil_append]
  rfl

omit each in
theorem assignedIn_shakenBlock :
    B.assignedIn o.shakenBlock = o.assigned.map fun a => a.target.lexeme := by
  have ofReturn : B.assignedIn o.shakenReturn = [] := by
    simp [shakenReturn, B.assignedIn, B.assignedInList, Tree.ofToken, assignedIn_leveled,
      settles.assigned]
  have ofAssignments : (o.assigned.map Assigned.shakenTree).flatMap B.assignedIn
      = o.assigned.map fun a => a.target.lexeme := by
    rw [List.flatMap_map, List.map_eq_flatMap]
    exact List.flatMap_congr fun a _ => a.assignedIn_shakenTree
  have ofToken (token : Token) : B.assignedIn (.ofToken token) = [] := by
    rw [Tree.ofToken, B.assignedIn]
  have whole : B.assignedIn o.shakenBlock = ([Tree.ofToken o.first]
      ++ ((o.assigned.map Assigned.shakenTree ++ [o.shakenReturn]) ++ [Tree.ofToken o.last])).flatMap
        B.assignedIn := by
    rw [← B.assignedInList_eq]
    rfl
  rw [whole]
  simp only [List.flatMap_append, List.flatMap_singleton, ofAssignments, ofReturn, ofToken,
    List.nil_append, List.append_nil]

theorem textsIn_shakenFunction (proper : o.Proper) : B.textsIn o.shakenFunction = [] := by
  have ofReturn : B.textsIn o.shakenReturn = [] := by
    rw [shakenReturn, B.textsIn_node (by decide)]
    simp only [List.flatMap_cons, List.flatMap_nil, textsIn_mark proper.ret, textsIn_leveled,
      settles.texts, textsIn_mark proper.semicolon, List.append_nil]
  have ofAssignments : (o.assigned.map Assigned.shakenTree).flatMap B.textsIn = [] := by
    rw [List.flatMap_map, List.flatMap_eq_nil_iff]
    exact fun a mem => a.textsIn_shakenTree (proper.assigned a mem) (each a mem)
  have ofBlock : B.textsIn o.shakenBlock = [] := by
    rw [shakenBlock, B.textsIn_node (by decide)]
    simp only [List.flatMap_append, List.flatMap_singleton, textsIn_mark proper.first, ofAssignments,
      ofReturn, textsIn_mark proper.last, List.append_nil]
  rw [shakenFunction, B.textsIn_node (by decide)]
  simp only [List.flatMap_cons, List.flatMap_nil, textsIn_mark proper.keyword,
    textsIn_name proper.name, textsIn_mark proper.opening, textsIn_mark proper.closing, ofBlock,
    List.append_nil]

/-- The function that is read from the program. -/
def typed : B.Function where
  name := o.name.lexeme
  parameters := []
  assigned := o.assigned.map fun a => a.target.lexeme
  body := some o.body
  span := o.shakenFunction.span

/-- **The program that is read** has no texts and one function, which has the assignments one
after the other and then the return. -/
theorem program_eq (proper : o.Proper) :
    B.Program.ofTree (B.language.shake o.tree) = ⟨[], [o.typed]⟩ := by
  have texts : B.textsIn (.node "b" none (some 0) [o.shakenFunction]) = [] := by
    rw [B.textsIn_node (by decide), List.flatMap_singleton, textsIn_shakenFunction settles each proper]
  have name : o.shakenFunction.labeled? "name" = some ((Tree.ofToken o.name).withLabel (some "name")) := rfl
  have body : o.shakenFunction.labeled? "body" = some o.shakenBlock := rfl
  have ofName : ((Tree.ofToken o.name).withLabel (some "name")).text = o.name.lexeme := by
    rw [Tree.ofToken, Tree.withLabel, text_leaf]
  have noParameters : (o.shakenFunction.children.find? fun c => c.name == "parameters") = none := by
    have marks {text : String} {token : Token} (is : token.unplaced = mark text) :
        (Tree.ofToken token).name ≠ "parameters" :=
      fun eq => quote_ne text (by decide) ((type_of_mark is).symm.trans eq)
    have named : ((Tree.ofToken o.name).withLabel (some "name")).name ≠ "parameters" := by
      rw [Tree.name_withLabel, Tree.ofToken, Tree.name, proper.name]
      decide
    rw [List.find?_eq_none]
    simp only [shakenFunction, Tree.children, List.forall_mem_cons, beq_iff_eq]
    exact ⟨marks proper.keyword, named, marks proper.opening, marks proper.closing,
      (by decide : "block" ≠ "parameters"), List.forall_mem_nil _⟩
  have function : B.Function.ofTree o.shakenFunction = o.typed := by
    rw [B.Function.ofTree, name, body, noParameters, typed]
    simp only [Option.map_some, Option.getD_some, ofName, assignedIn_shakenBlock settles,
      ofTree_shakenBlock]
  rw [shake_tree settles each, B.Program.ofTree, texts]
  show (⟨[], [B.Function.ofTree o.shakenFunction]⟩ : B.Program) = _
  rw [function]

end

end Outline

end Polyglot.Expr
