import Polyglot.Proofs.Expr.Reading
import Polyglot.Proofs.Expr.Sources

/-!
# The tree of the program of an expression

The program that gives values to names and then returns an expression has tokens that are known
(`Expr.programTokens`), and this module says which tree B reads from them (`Outline.reads`).
The values are sums like the expression is, so all that is to be known of either is the tree
that it is the counterpart of.
-/

namespace Polyglot.Expr

open Along (RuleReads SymbolReads TermReads SeqReads SymbolFails SeqFails nextType exists_depth)
open Assembly (word)
open Lexicon (mark nameToken numberToken isReserved_quote)
open B (one)

/-! ## Assignments -/

/-- The parts of an assignment. -/
structure Assigned where
  /-- The name. -/
  target : Token
  /-- The sign behind it. -/
  equals : Token
  /-- The tree of the sum that is assigned. -/
  value : Tree
  /-- The end. -/
  semicolon : Token

namespace Assigned

/-- The tree of an assignment among statements. -/
def tree (a : Assigned) : Tree :=
  .node "statement" none (some 4) [.node "assignment" none (some 0)
    [(Tree.ofToken a.target).withLabel (some "target"), .ofToken a.equals,
      (wrapped a.value).withLabel (some "value"), .ofToken a.semicolon]]

variable (a : Assigned)

theorem tokens_tree :
    a.tree.tokens = [a.target] ++ ([a.equals] ++ (a.value.tokens ++ [a.semicolon])) := by
  simp [tree, Tree.ofToken, tokens_wrapped]

/-- Whether the parts are what the grammar asks for. -/
structure Proper : Prop where
  /-- A name is assigned. -/
  target : a.target.type = "identifier"
  /-- The sign is an equals sign. -/
  equals : a.equals.unplaced = mark "="
  /-- The end is a semicolon. -/
  semicolon : a.semicolon.unplaced = mark ";"
  /-- The sum has no label. -/
  bare : a.value.withLabel none = a.value

/-- No call starts with a name and an equals sign. -/
theorem noCall {depth base : Nat} {token : Token} (is : token.type = "identifier") {rest : List Token}
    (next : nextType rest = some (Text.quote "=")) (after : base < 20) :
    SymbolFails B.readGrammar (depth + 1) base (.rule 20) (token :: rest) := by
  have noBracket : Along.refusesAll (Along.refusesAfter B.readGrammar (some (Text.quote "=")) 0 0)
      [word "(", { one 21 with multiplicity := .optional }, word ")"] := by
    decide
  refine .rule after rfl fun terms mem => ?_
  obtain rfl := List.mem_singleton.1 mem
  refine .token rfl rfl is (by decide) (.of_refuses ?_)
  rw [next]
  exact Along.refusesAll_mono (fun x => Along.refusesAfter_mono (Nat.zero_le _)) noBracket

/-- **Assignments are found**, whatever follows. -/
theorem found (proper : a.Proper) {depth : Nat} (found : FoundFrom .sum depth a.value) {depth' : Nat}
    (deep : depth + 9 ≤ depth') (rest : List Token) :
    RuleReads B.readGrammar depth' 3 a.tree.tokens a.tree rest := by
  obtain ⟨depth', rfl⟩ : ∃ n, depth' = n + 3 := ⟨depth' - 3, by omega⟩
  have next {more : List Token} : nextType (([a.equals] ++ more) ++ rest) = some (Text.quote "=") :=
    nextType_mark proper.equals _
  have stops : Stops .sum ([a.semicolon] ++ rest) :=
    ⟨";", by decide, nextType_mark proper.semicolon rest⟩
  have target : TermReads B.readGrammar (depth' + 1) 8
      { symbol := .terminal "identifier", label := some "target" } [a.target]
      ((Tree.ofToken a.target).withLabel (some "target"))
      (([a.equals] ++ (a.value.tokens ++ [a.semicolon])) ++ rest) :=
    .once rfl rfl (.terminal proper.target (by decide))
  have value : TermReads B.readGrammar (depth' + 1) 0 { one 12 with label := some "value" }
      a.value.tokens ((wrapped a.value).withLabel (some "value")) ([a.semicolon] ++ rest) :=
    .once rfl rfl (.rule (by decide) (wrapped_found proper.bare found stops (by omega)))
  have assignment : RuleReads B.readGrammar (depth' + 2) 8 a.tree.tokens (.node "assignment" none
      (some 0) [(Tree.ofToken a.target).withLabel (some "target"), .ofToken a.equals,
        (wrapped a.value).withLabel (some "value"), .ofToken a.semicolon]) rest := by
    rw [a.tokens_tree]
    exact .only rfl (.cons_further target (List.cons_ne_nil _ _)
      (.cons (mark_found proper.equals) (.cons value (.one (mark_found proper.semicolon)))))
  -- a call starts with a name as well, but a bracket would have to follow
  have noCallStatement : SeqFails B.readGrammar (depth' + 2) 3 [one 10] (a.tree.tokens ++ rest) := by
    rw [a.tokens_tree]
    refine .head rfl (.rule (by decide) rfl fun terms mem => ?_)
    obtain rfl := List.mem_singleton.1 mem
    exact .head rfl (noCall proper.target next (by decide))
  -- no other statement starts with a name
  have others : ∀ terms ∈ [[one 4], [one 5], [one 6], [one 7], [one 9], [one 11]],
      Along.refusesAll (Along.refusesAfter B.readGrammar (some "identifier") 2 3) terms := by
    decide
  have start : nextType (a.tree.tokens ++ rest) = some "identifier" := by
    rw [a.tokens_tree]
    exact congrArg some proper.target
  refine .among (i := 4) rfl rfl (fun terms mem => ?_) (.one (.once rfl rfl (.rule (by decide) assignment)))
  by_cases call : terms = [one 10]
  · rw [call]
    exact noCallStatement
  · have mem : terms ∈ [[one 4], [one 5], [one 6], [one 7], [one 9], [one 11]] := by
      simp [List.eraseIdx] at mem ⊢
      tauto
    refine .of_refuses ?_
    rw [start]
    exact Along.refusesAll_mono (fun x => Along.refusesAfter_mono (by omega)) (others terms mem)

end Assigned

/-! ## The program -/

/-- The parts of the program. -/
structure Outline where
  /-- The word that starts a function. -/
  keyword : Token
  /-- The name of the function. -/
  name : Token
  /-- The brackets of the parameters. -/
  opening : Token
  /-- The brackets of the parameters. -/
  closing : Token
  /-- The bracket before the statements. -/
  first : Token
  /-- The assignments. -/
  assigned : List Assigned
  /-- The word that starts the last statement. -/
  ret : Token
  /-- The tree of the sum that is returned. -/
  value : Tree
  /-- The end of the last statement. -/
  semicolon : Token
  /-- The bracket behind the statements. -/
  last : Token

namespace Outline

variable (o : Outline)

/-- The tree of the last statement. -/
def returnTree : Tree :=
  .node "statement" none (some 3) [.node "return" none (some 0) [.ofToken o.ret,
    .node "expression?" (some "value") none [wrapped o.value], .ofToken o.semicolon]]

/-- The trees of the statements. -/
def statements : List Tree := o.assigned.map Assigned.tree ++ [o.returnTree]

/-- The tree of the statements in brackets. -/
def block : Tree :=
  .node "statement" none (some 0) [.node "block" none (some 0)
    [.ofToken o.first, .node "statement*" none none o.statements, .ofToken o.last]]

/-- The tree of the function. -/
def function : Tree :=
  .node "function" none (some 0) [.ofToken o.keyword, (Tree.ofToken o.name).withLabel (some "name"),
    .ofToken o.opening, .node "parameters?" none none [], .ofToken o.closing,
    o.block.withLabel (some "body")]

/-- The tree of the program. -/
def tree : Tree := .node "b" none (some 0) [.node "function+" none none [o.function]]

/-- Whether the parts are what the grammar asks for. -/
structure Proper : Prop where
  /-- A function starts with its word. -/
  keyword : o.keyword.unplaced = mark "fn"
  /-- It has a name. -/
  name : o.name.type = "identifier"
  /-- The brackets are round. -/
  opening : o.opening.unplaced = mark "("
  /-- The brackets are round. -/
  closing : o.closing.unplaced = mark ")"
  /-- The bracket is curly. -/
  first : o.first.unplaced = mark "\x7b"
  /-- The assignments are proper. -/
  assigned : ∀ a ∈ o.assigned, a.Proper
  /-- The last statement starts with its word. -/
  ret : o.ret.unplaced = mark "return"
  /-- The sum has no label. -/
  bare : o.value.withLabel none = o.value
  /-- The sum has tokens. -/
  solid : o.value.tokens ≠ []
  /-- The end is a semicolon. -/
  semicolon : o.semicolon.unplaced = mark ";"
  /-- The bracket is curly. -/
  last : o.last.unplaced = mark "\x7d"

theorem tokens_returnTree :
    o.returnTree.tokens = [o.ret] ++ (o.value.tokens ++ [o.semicolon]) := by
  simp [returnTree, Tree.ofToken, tokens_wrapped]

theorem tokens_block :
    o.block.tokens = [o.first] ++ (o.statements.flatMap Tree.tokens ++ [o.last]) := by
  simp [block, Tree.ofToken]

theorem tokens_function : o.function.tokens = [o.keyword] ++ ([o.name] ++ ([o.opening]
    ++ ([] ++ ([o.closing] ++ o.block.tokens)))) := by
  simp [function, Tree.ofToken]

theorem tokens_tree : o.tree.tokens = [o.function].flatMap Tree.tokens := by
  simp [tree]

section

variable {o} (proper : o.Proper) {depth depth' : Nat}
include proper

/-- The last statement is found, whatever follows. -/
theorem found_return (found : FoundFrom .sum depth o.value) (deep : depth + 9 ≤ depth')
    (rest : List Token) : RuleReads B.readGrammar depth' 3 o.returnTree.tokens o.returnTree rest := by
  obtain ⟨depth', rfl⟩ : ∃ n, depth' = n + 3 := ⟨depth' - 3, by omega⟩
  have stops : Stops .sum ([o.semicolon] ++ rest) :=
    ⟨";", by decide, nextType_mark proper.semicolon rest⟩
  have value : TermReads B.readGrammar (depth' + 1) 0
      { one 12 with multiplicity := .optional, label := some "value" } o.value.tokens
      (.node "expression?" (some "value") none [wrapped o.value]) ([o.semicolon] ++ rest) :=
    .optional_some rfl proper.solid
      (.rule (by decide) (wrapped_found proper.bare found stops (by omega)))
  have start (more : List Token) : nextType ([o.ret] ++ more) = some (Text.quote "return") :=
    nextType_mark proper.ret _
  have selected : Along.selects B.readGrammar (Text.quote "return") 2 3 3 := by decide
  have returned : RuleReads B.readGrammar (depth' + 2) 7 o.returnTree.tokens (.node "return" none
      (some 0) [.ofToken o.ret, .node "expression?" (some "value") none [wrapped o.value],
        .ofToken o.semicolon]) rest := by
    rw [o.tokens_returnTree]
    exact .only rfl (.cons_further (mark_found proper.ret) (List.cons_ne_nil _ _)
      (.cons value (.one (mark_found proper.semicolon))))
  refine .alternative rfl rfl ?_ (Along.selects_mono (by omega) selected)
    (.one (.once rfl rfl (.rule (by decide) returned)))
  rw [o.tokens_returnTree]
  exact nextType_mark proper.ret _

/-- Each statement is found, whatever follows. -/
theorem found_statement (found : FoundFrom .sum depth o.value)
    (each : ∀ a ∈ o.assigned, FoundFrom .sum depth a.value) {t : Tree} (mem : t ∈ o.statements)
    (rest : List Token) : RuleReads B.readGrammar (depth + 11) 3 t.tokens t rest := by
  rcases List.mem_append.1 mem with mem | mem
  · obtain ⟨a, among, rfl⟩ := List.mem_map.1 mem
    exact a.found (proper.assigned a among) (each a among) (by omega) rest
  · obtain rfl := List.mem_singleton.1 mem
    exact found_return proper found (by omega) rest

omit proper in
theorem tokens_ne_nil_of_mem_statements {t : Tree} (mem : t ∈ o.statements) : t.tokens ≠ [] := by
  rcases List.mem_append.1 mem with mem | mem
  · obtain ⟨a, -, rfl⟩ := List.mem_map.1 mem
    rw [a.tokens_tree]
    exact List.cons_ne_nil _ _
  · obtain rfl := List.mem_singleton.1 mem
    rw [o.tokens_returnTree]
    exact List.cons_ne_nil _ _

/-- The statements in brackets are found, whatever follows. -/
theorem found_block (found : FoundFrom .sum depth o.value)
    (each : ∀ a ∈ o.assigned, FoundFrom .sum depth a.value) (rest : List Token) :
    RuleReads B.readGrammar (depth + 13) 3 o.block.tokens o.block rest := by
  have noStatement : Along.refusesAfter B.readGrammar (some (Text.quote "\x7d")) 4 0 (.rule 3) := by
    decide
  have ends : SymbolFails B.readGrammar (depth + 11) 0 (.rule 3) ([o.last] ++ rest) := by
    refine .of_refuses ?_
    rw [List.singleton_append, nextType_mark proper.last]
    exact Along.refusesAfter_mono (by omega) noStatement
  have statements : TermReads B.readGrammar (depth + 11) 0
      { one 3 with multiplicity := .star } (o.statements.flatMap Tree.tokens)
      (.node "statement*" none none o.statements) ([o.last] ++ rest) := by
    have reads := TermReads.many (t := { one 3 with multiplicity := .star }) (P := fun _ => True)
      (.inl rfl) (fun t mem more _ => .rule (by decide) (found_statement proper found each mem more))
      (fun t => tokens_ne_nil_of_mem_statements) (fun _ _ _ => trivial) trivial ends
    rwa [List.map_id'] at reads
  have inner : RuleReads B.readGrammar (depth + 12) 4 o.block.tokens (.node "block" none (some 0)
      [.ofToken o.first, .node "statement*" none none o.statements, .ofToken o.last]) rest := by
    rw [o.tokens_block]
    exact .only rfl (.cons_further (mark_found proper.first) (List.cons_ne_nil _ _)
      (.cons statements (.one (mark_found proper.last))))
  have selected : Along.selects B.readGrammar (Text.quote "\x7b") 3 3 0 := by decide
  refine .alternative rfl rfl ?_ (Along.selects_mono (by omega) selected)
    (.one (.once rfl rfl (.rule (by decide) inner)))
  rw [o.tokens_block]
  exact nextType_mark proper.first _

/-- The function is found, whatever follows. -/
theorem found_function (found : FoundFrom .sum depth o.value)
    (each : ∀ a ∈ o.assigned, FoundFrom .sum depth a.value) (rest : List Token) :
    RuleReads B.readGrammar (depth + 14) 1 o.function.tokens o.function rest := by
  have noParameters : Along.refusesAfter B.readGrammar (some (Text.quote ")")) 1 0 (.rule 2) := by
    decide
  have parameters : TermReads B.readGrammar (depth + 13) 0
      { one 2 with multiplicity := .optional } [] (.node "parameters?" none none [])
      (([o.closing] ++ o.block.tokens) ++ rest) := by
    refine .optional_none rfl ?_
    rw [List.append_assoc, List.singleton_append, nextType_mark proper.closing]
    exact Along.refusesAfter_mono (by omega) noParameters
  have name (rest : List Token) : TermReads B.readGrammar (depth + 13) 0
      { symbol := .terminal "identifier", label := some "name" } [o.name]
      ((Tree.ofToken o.name).withLabel (some "name")) rest :=
    .once rfl rfl (.terminal proper.name (by decide))
  have block := found_block proper found each rest
  rw [o.tokens_function]
  exact .only rfl (.cons_further (mark_found proper.keyword) (List.cons_ne_nil _ _)
    (.cons (name _) (.cons (mark_found proper.opening) (.cons parameters
      (.cons (mark_found proper.closing) (.one (.once rfl rfl (.rule (by decide) block))))))))

/-- **The program is found**, if the sums in it are. -/
theorem reads (found : FoundFrom .sum depth o.value)
    (each : ∀ a ∈ o.assigned, FoundFrom .sum depth a.value) :
    RuleReads B.readGrammar (depth + 15) B.readGrammar.entry o.tree.tokens o.tree [] := by
  have solid : o.function.tokens ≠ [] := by
    rw [o.tokens_function]
    exact List.cons_ne_nil _ _
  have noFunction : Along.refusesAfter B.readGrammar none 1 0 (.rule 1) := by decide
  have function : ∀ t ∈ [o.function], ∀ more, True → SymbolReads B.readGrammar (depth + 14) 0
      (.rule 1) t.tokens t more :=
    List.forall_mem_singleton.2 fun more _ => .rule (by decide) (found_function proper found each more)
  have functions : TermReads B.readGrammar (depth + 14) 0 { one 1 with multiplicity := .plus }
      ([o.function].flatMap Tree.tokens) (.node "function+" none none [o.function]) [] :=
    TermReads.many (t := { one 1 with multiplicity := .plus }) (P := fun _ => True)
      (.inr ⟨rfl, List.cons_ne_nil _ _⟩) function (List.forall_mem_singleton.2 solid)
      (fun _ _ _ => trivial) trivial (.of_refuses (Along.refusesAfter_mono (by omega) noFunction))
  rw [o.tokens_tree]
  exact .only rfl (.one functions)

end

end Outline

end Polyglot.Expr
