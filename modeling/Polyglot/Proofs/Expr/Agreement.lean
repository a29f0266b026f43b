import Polyglot.Proofs.B.Correctness
import Polyglot.Proofs.Expr.Typed
import Polyglot.Proofs.Parsing.Tokens

/-!
# Evaluating and compiling agree

An expression has a value of its own, and it also has the one that the machine ends with if it is
compiled as the last statement of a program of B, which gives values to its variables before. The
two are the same, and where there is none both find the division by zero
(`Expr.evaluate_agrees`).

What the program is read as is put together from the counterpart of the tree of the expression
(`Expr.exists_outline`), and it means what the expression means (`Outline.run_eq`), since the two
are twins. The rest is that compiling preserves meaning.
-/

namespace Polyglot.Expr

open Lexicon (mark nameToken numberToken IsWord)
open B (Run Flow)

/-! ## Numbers -/

/-- The tree of a phrase as that of a sum. -/
def alone (t : Tree) : Tree := Chain.sum.tree (Chain.product.tree t []) []

theorem tokens_alone (t : Tree) : (alone t).tokens = t.tokens := by
  simp [alone, Chain.tokens_tree]

theorem Corresponds.alone {names : List String} {t t' : Tree} (h : Corresponds names .unary t t') :
    Corresponds names .sum (alone t) (alone t') :=
  @chain names .sum _ _ [] (@chain names .product t t' [] h nofun nofun) nofun nofun

/-- What is read from a phrase as a sum is what is read from the phrase. -/
theorem ofTree_alone {t x : Tree} (single : language.shaker.shakeInner t = [x]) :
    ∃ u, language.shaker.shakeInner (alone t) = [u] ∧ ofTree u = ofTree x := by
  have kept (c : Chain) : language.shaker.isSpliced c.name = false := by cases c <;> decide
  rw [alone, shakeInner_tree rfl (kept .sum), shakeInner_tree rfl (kept .product), single]
  refine ⟨_, rfl, ?_⟩
  rw [List.flatMap_nil, List.singleton_append, Chain.ofTree_node, ofPairs, List.append_nil,
    Chain.ofTree_node, ofPairs]

/-- Whether a sum of B spells a number. -/
def Spells (value : Int32) (t' : Tree) : Prop :=
  ∃ t u, Corresponds [] .sum t t' ∧ language.shaker.shakeInner t = [u]
    ∧ ∀ env, eval env (ofTree u) = .ok value

/-- The tree of a number. -/
theorem spells_digits {n : Nat} (small : n < Text.bitRange 63) {token : Token}
    (is : token.unplaced = numberToken n) :
    ∃ t t' x, Corresponds [] .unary t t' ∧ t'.tokens = [token]
      ∧ language.shaker.shakeInner t = [x] ∧ ofTree x = .number n := by
  have type : token.type = "decimal_integer" := congrArg Token.type is
  have known : token.int? = some (n : Int) := by
    rw [← token.int?_unplaced, is, Assembly.int?_numberToken, if_pos small]
  refine ⟨_, _, _, .number type rfl, by simp [plainTree],
    shakenLeaf rfl (by decide) (by decide) .., ?_⟩
  rw [ofTree_single, ofTree, ofLeaf, known]

/-- **Numbers are spelled** by their tokens. -/
theorem exists_spells (value : Int32) {us : List Token}
    (same : us.map Token.unplaced = valueTokens value.toInt) :
    ∃ t', Spells value t' ∧ t'.tokens = us := by
  have upper := value.toInt_lt
  have lower := value.le_toInt
  have again : Int32.ofInt value.toInt = value := Int32.ofInt_toInt value
  cases sign : value.toInt with
  | ofNat n =>
    rw [sign] at same again
    obtain ⟨token, rest, rfl, is, ended⟩ := List.map_eq_cons_iff.1 same
    obtain rfl := List.map_eq_nil_iff.1 ended
    have small : n < Text.bitRange 63 := by
      rw [sign, Int.ofNat_eq_natCast] at upper
      simp only [Text.bitRange]
      omega
    obtain ⟨t, t', x, corresponds, tokens, single, number⟩ := spells_digits small is
    obtain ⟨u, shaken, same⟩ := ofTree_alone single
    refine ⟨alone t', ⟨alone t, u, corresponds.alone, shaken, fun env => ?_⟩, ?_⟩
    · rw [same, number, eval]
      exact congrArg _ again
    · rw [tokens_alone, tokens]
  | negSucc n =>
    rw [sign] at same again
    obtain ⟨minus, rest, rfl, isMinus, same⟩ := List.map_eq_cons_iff.1 same
    obtain ⟨token, rest, rfl, is, ended⟩ := List.map_eq_cons_iff.1 same
    obtain rfl := List.map_eq_nil_iff.1 ended
    -- the digits of the lowest number are out of its own range, but not out of that of a token
    have small : n + 1 < Text.bitRange 63 := by
      rw [sign, Int.negSucc_eq] at lower
      simp only [Text.bitRange]
      omega
    obtain ⟨t, t', x, corresponds, tokens, single, number⟩ := spells_digits small is
    have shaken : language.shaker.shakeInner (.node "unary" none (some 0) [.ofToken minus, t])
        = [.node "unary" none (some 0) [.ofToken minus, x]] := by
      rw [Shake.shakeInner_kept (by decide) rfl]
      simp only [Shake.shakeList, shakeInner_mark, single, List.singleton_append, List.append_nil]
    obtain ⟨u, shaken, same⟩ := ofTree_alone shaken
    have negative : Corresponds [] .unary _ _ := .negate ⟨isMinus, isMinus⟩ corresponds
    refine ⟨_, ⟨_, u, negative.alone, shaken, fun env => ?_⟩, ?_⟩
    · rw [same, ofTree_negate (areSigns ⟨isMinus, isMinus⟩).1, number, eval_negate_of_ok rfl,
        ← Int32.ofInt_neg]
      exact congrArg _ again
    · rw [tokens_alone]
      simp [Tree.ofToken, tokens]

/-! ## The parts of the program -/

theorem Corresponds.solid {names : List String} {level : Level} {t t' : Tree}
    (h : Corresponds names level t t') : t'.tokens ≠ [] := by
  induction h with
  | number | «variable» | group | negate => simp [plainTree, Tree.ofToken]
  | chain head signs operands ih => simp [Chain.tokens_tree, ih]

theorem Spells.corresponds {value : Int32} {t' : Tree} (spells : Spells value t') :
    ∃ t, Corresponds [] .sum t t' := by
  obtain ⟨t, -, corresponds, -⟩ := spells
  exact ⟨t, corresponds⟩

/-- The parts of an assignment, from its tokens. -/
theorem exists_assigned {name : String} {value : Int32} {us : List Token}
    (same : us.map Token.unplaced = assignmentTokens name value) :
    ∃ a : Assigned, a.tree.tokens = us ∧ a.Proper ∧ a.target.lexeme = name ∧ Spells value a.value := by
  simp only [assignmentTokens, List.cons_append, List.nil_append] at same
  obtain ⟨target, us, rfl, isName, same⟩ := List.map_eq_cons_iff.1 same
  obtain ⟨equals, us, rfl, isEquals, same⟩ := List.map_eq_cons_iff.1 same
  obtain ⟨digits, us, rfl, isValue, last⟩ := List.map_eq_append_iff.1 same
  obtain ⟨semicolon, us, rfl, isEnd, ended⟩ := List.map_eq_cons_iff.1 last
  obtain rfl := List.map_eq_nil_iff.1 ended
  obtain ⟨t', spells, rfl⟩ := exists_spells value isValue
  obtain ⟨t, corresponds⟩ := spells.corresponds
  exact ⟨⟨target, equals, t', semicolon⟩, Assigned.tokens_tree _,
    ⟨congrArg Token.type isName, isEquals, isEnd, corresponds.bare⟩, congrArg Token.lexeme isName, spells⟩

/-- The parts of assignments one after the other, from their tokens. -/
theorem exists_assignments {names : List String} {value : String → Int32} {us : List Token}
    (same : us.map Token.unplaced = names.flatMap fun name => assignmentTokens name (value name)) :
    ∃ as : List Assigned, as.flatMap (·.tree.tokens) = us ∧ as.map (·.target.lexeme) = names
      ∧ ∀ a ∈ as, a.Proper ∧ Spells (value a.target.lexeme) a.value := by
  induction names generalizing us with
  | nil =>
    obtain rfl := List.map_eq_nil_iff.1 same
    exact ⟨[], rfl, rfl, List.forall_mem_nil _⟩
  | cons name names ih =>
    obtain ⟨us, more, rfl, same, same'⟩ := List.map_eq_append_iff.1 same
    obtain ⟨a, rfl, proper, rfl, spells⟩ := exists_assigned same
    obtain ⟨as, rfl, rfl, each⟩ := ih same'
    exact ⟨a :: as, rfl, rfl, List.forall_mem_cons.2 ⟨⟨proper, spells⟩, each⟩⟩

/-- Whether a program gives values to names and then returns a sum that corresponds to that of an
expression. -/
structure Outline.Renders (o : Outline) (names : List String) (value : String → Int32) (t : Tree) :
    Prop where
  /-- The parts are what the grammar asks for. -/
  proper : o.Proper
  /-- The function is the first one that is called. -/
  name : o.name.lexeme = "main"
  /-- The names are assigned. -/
  targets : o.assigned.map (·.target.lexeme) = names
  /-- They are given the values. -/
  spells : ∀ a ∈ o.assigned, Spells (value a.target.lexeme) a.value
  /-- The sum corresponds to that of the expression. -/
  returns : Corresponds names .sum t o.value

/-- **The parts of the program**, from its tokens. -/
theorem exists_outline {names : List String} {value : String → Int32} {t : Tree}
    (counterpart : HasCounterpart names .sum t) {us ts : List Token}
    (tokens : ts.map Token.unplaced = t.tokens.map Token.unplaced)
    (same : us.map Token.unplaced = (programTokens names value ts).map Token.unplaced) :
    ∃ o : Outline, o.tree.tokens = us ∧ o.Renders names value t := by
  have placed (name : String) (v : Int32) :
      (assignmentTokens name v).map Token.unplaced = assignmentTokens name v := by
    rw [assignmentTokens]
    cases v.toInt <;> rfl
  simp only [programTokens, List.map_append, List.map_flatMap, placed, List.map_cons, List.map_nil,
    List.cons_append, List.nil_append] at same
  obtain ⟨keyword, us, rfl, isKeyword, same⟩ := List.map_eq_cons_iff.1 same
  obtain ⟨name, us, rfl, isName, same⟩ := List.map_eq_cons_iff.1 same
  obtain ⟨opening, us, rfl, isOpening, same⟩ := List.map_eq_cons_iff.1 same
  obtain ⟨closing, us, rfl, isClosing, same⟩ := List.map_eq_cons_iff.1 same
  obtain ⟨first, us, rfl, isFirst, same⟩ := List.map_eq_cons_iff.1 same
  obtain ⟨assigned, us, rfl, areAssigned, same⟩ := List.map_eq_append_iff.1 same
  obtain ⟨ret, us, rfl, isReturn, same⟩ := List.map_eq_cons_iff.1 same
  obtain ⟨sum, us, rfl, isSum, same⟩ := List.map_eq_append_iff.1 same
  obtain ⟨semicolon, us, rfl, isEnd, same⟩ := List.map_eq_cons_iff.1 same
  obtain ⟨last, us, rfl, isLast, ended⟩ := List.map_eq_cons_iff.1 same
  obtain rfl := List.map_eq_nil_iff.1 ended
  obtain ⟨as, rfl, targets, each⟩ := exists_assignments areAssigned
  obtain ⟨t', corresponds, rfl⟩ := counterpart sum (isSum.trans tokens)
  refine ⟨⟨keyword, name, opening, closing, first, as, ret, t', semicolon, last⟩, ?_, ?_⟩
  · simp [Outline.tokens_tree, Outline.tokens_function, Outline.tokens_block, Outline.statements,
      Outline.tokens_returnTree, List.flatMap_map]
  · exact ⟨⟨isKeyword, congrArg Token.type isName, isOpening, isClosing, isFirst,
      fun a mem => (each a mem).1, isReturn, corresponds.bare, corresponds.solid, isEnd, isLast⟩,
      congrArg Token.lexeme isName, targets, fun a mem => (each a mem).2, corresponds⟩

/-! ## What the program means -/

theorem Spells.settles {value : Int32} {t' : Tree} (spells : Spells value t') : Settles t' := by
  obtain ⟨t, corresponds⟩ := spells.corresponds
  exact corresponds.settles

/-- The expression that is read from the counterpart of a sum is a twin. -/
theorem Corresponds.summand {names : List String} {t t' u : Tree}
    (h : Corresponds names .sum t t') (shaken : language.shaker.shakeInner t = [u]) :
    Twins names (ofTree u) (summand t') := by
  obtain ⟨x, x', eq, eq', twins⟩ := h.twins
  obtain rfl := List.singleton_inj.1 (eq.symm.trans shaken)
  obtain rfl := List.singleton_inj.1 (eq'.symm.trans h.settles.single)
  exact twins

/-- A number that is spelled has a twin with its value. -/
theorem Spells.exists_twin {value : Int32} {t' : Tree} (spells : Spells value t') :
    ∃ x, Twins [] x (summand t') ∧ ∀ env, eval env x = .ok value := by
  obtain ⟨t, u, corresponds, shaken, eval⟩ := spells
  exact ⟨ofTree u, corresponds.summand shaken, eval⟩

section

variable {calls : B.Calls} {allowance : Nat} {inner : B.Env} {out : Array UInt8}
  {value : String → Int32} {as : List Assigned}

/-- The variables after assignments. -/
def given (value : String → Int32) (inner : B.Env) (names : List String) : B.Env :=
  fun name => if name ∈ names then some (value name) else inner name

theorem given_cons (name : String) (names : List String) :
    given value (inner.set name (value name)) names = given value inner (name :: names) := by
  funext other
  simp only [given, B.Env.set, List.mem_cons]
  by_cases later : other ∈ names
  · simp [later]
  · by_cases here : other = name
    · simp [here]
    · simp [later, here]

/-- Assignments of numbers give the variables their values, one after the other. -/
theorem execAll_assigned (spells : ∀ a ∈ as, Spells (value a.target.lexeme) a.value)
    (rest : List B.Statement) :
    B.execAll calls allowance (as.map Assigned.statement ++ rest) inner out
      = B.execAll calls allowance rest (given value inner (as.map (·.target.lexeme))) out := by
  induction as generalizing inner with
  | nil =>
    have same : given value inner [] = inner := funext fun _ => if_neg nofun
    rw [List.map_nil, List.map_nil, same, List.nil_append]
  | cons a as ih =>
    obtain ⟨first, others⟩ := List.forall_mem_cons.1 spells
    obtain ⟨x, twins, known⟩ := first.exists_twin
    have unread : ∀ name ∈ ([] : List String), inner name = inner name := nofun
    have evaluated := twins.eval unread calls out
    rw [known] at evaluated
    rw [List.map_cons, List.map_cons, ← given_cons, ← ih others, List.cons_append, B.execAll,
      Assigned.statement, B.Statement.exec, B.Run.andThen, B.Run.andThen, evaluated]
    rfl

end

variable {o : Outline} {names : List String} {value : String → Int32} {env : String → Option Int32}
  {t u : Tree}

/-- **The program means what the expression means.** -/
theorem Outline.Renders.run_eq (renders : o.Renders names value t)
    (shaken : language.shaker.shakeInner t = [u])
    (same : ∀ name ∈ names, env name = some (value name)) (allowance : Nat) :
    B.Program.run ⟨[], [o.typed]⟩ (allowance + 1) = (outcome (eval env (ofTree u)), #[]) := by
  have first : B.Program.function? ⟨[], [o.typed]⟩ "main" = some o.typed := by
    rw [B.Program.function?, List.find?_cons_of_pos]
    exact beq_iff_eq.2 renders.name
  have evaluated := (renders.returns.summand shaken).eval
    (fun name mem => show given value .empty names name = env name by
      rw [given, if_pos mem, same name mem])
    (B.Program.call ⟨[], [o.typed]⟩ allowance) #[]
  rw [B.Program.run, B.Program.call]
  dsimp only
  rw [first]
  dsimp only
  have does : o.typed.body = some o.body := rfl
  have start : B.Env.bind .empty o.typed.parameters [] = .empty := rfl
  rw [B.Function.run, does, start]
  dsimp only
  rw [body, B.Statement.exec, B.Run.andThen, execAll_assigned renders.spells,
    renders.targets, B.execAll, B.Statement.exec, B.Run.andThen, B.Run.andThen, evaluated]
  cases outcome (eval env (ofTree u)) <;> rfl

/-! ## What the compiler makes of it -/

section

variable {names : List String} {x : Term} {e : B.Expression} {s : B.Scope} {σ σ' : B.Supply}

/-- The twin of a term uses neither memory nor texts nor the host, if it can be compiled. -/
theorem Twins.plain (h : Twins names x e) {result : List Assembly.Line × B.Value}
    (done : e.compile s σ = .ok (result, σ')) : e.plain := by
  induction h generalizing σ σ' result with
  | number | «variable» => rfl
  | negate _ ih =>
    obtain ⟨_, _, _, compiled, -⟩ := B.Expression.compile_negate done
    exact ih compiled
  | binary _ _ ih ih' =>
    obtain ⟨_, _, _, _, _, _, first, second, -⟩ := B.Expression.compile_binary done
    exact Bool.and_eq_true_iff.2 ⟨ih first, ih' second⟩
  | invalid => exact absurd done B.Expression.compile_broken_ne

/-- The twin of a term reads only its variables. -/
theorem Twins.definite (h : Twins names x e) {known : B.Known} (each : ∀ name ∈ names, known name) :
    e.definite known := by
  induction h with
  | number | invalid => rfl
  | «variable» mem => exact each _ mem
  | negate _ ih => exact ih
  | binary _ _ ih ih' => exact Bool.and_eq_true_iff.2 ⟨ih, ih'⟩

/-- Assignments of numbers and then a return read only what was assigned. -/
theorem definite_assigned {as : List Assigned} {value : String → Int32} {known : B.Known}
    (spells : ∀ a ∈ as, Spells (value a.target.lexeme) a.value)
    (reads : ∀ known' : B.Known, known.Le known' → (∀ a ∈ as, known' a.target.lexeme) →
      e.definite known') :
    B.definiteBlock known (as.map Assigned.statement ++ [.ret (some e)]) := by
  induction as generalizing known with
  | nil =>
    have here := reads known (fun _ eq => eq) (List.forall_mem_nil _)
    simp [B.definiteBlock, B.Statement.definite, here]
  | cons a as ih =>
    obtain ⟨first, others⟩ := List.forall_mem_cons.1 spells
    obtain ⟨x, twins, -⟩ := first.exists_twin
    have here : (summand a.value).definite known := twins.definite nofun
    refine Bool.and_eq_true_iff.2 ⟨here, ih others fun known' le each => reads known' ?_ ?_⟩
    · exact fun name eq => le name (Bool.or_eq_true_iff.2 (.inr eq))
    · exact List.forall_mem_cons.2
        ⟨le _ (Bool.or_eq_true_iff.2 (.inl (beq_self_eq_true _))), each⟩

theorem plainBlock_eq (bs : List B.Statement) : B.plainBlock bs = bs.all B.Statement.plain := by
  induction bs with
  | nil => rfl
  | cons b bs ih => rw [B.plainBlock, ih, List.all_cons]

/-- Every statement of a block is compiled if the block is. -/
theorem exists_of_compileBlock {bs : List B.Statement} {code : List Assembly.Line}
    (done : B.compileBlock s bs σ = .ok (code, σ')) {b : B.Statement} (mem : b ∈ bs) :
    ∃ σ₁ r, b.compile s σ₁ = .ok r := by
  induction bs generalizing σ code with
  | nil => cases mem
  | cons c bs ih =>
    obtain ⟨first, σ₁, rest, compiled, others, -⟩ := B.compileBlock_cons done
    rcases List.mem_cons.1 mem with rfl | mem
    · exact ⟨σ, _, compiled⟩
    · exact ih others mem

/-- A block that is refused has a statement that is. -/
theorem exists_of_compileBlock_error {bs : List B.Statement} {reason : B.CompileError}
    (refused : B.compileBlock s bs σ = .error reason) : ∃ b ∈ bs, ∃ σ₁, b.compile s σ₁ = .error reason := by
  induction bs generalizing σ with
  | nil =>
    rw [B.compileBlock] at refused
    cases refused
  | cons c bs ih =>
    rw [B.compileBlock] at refused
    rcases B.Emit.bind_eq_error.1 refused with refused | ⟨first, σ₁, -, refused⟩
    · exact ⟨c, List.mem_cons_self, σ, refused⟩
    · rcases B.Emit.bind_eq_error.1 refused with refused | ⟨rest, σ₂, -, refused⟩
      · obtain ⟨b, mem, again⟩ := ih refused
        exact ⟨b, List.mem_cons_of_mem _ mem, again⟩
      · cases refused

/-- A function that is refused has a body that is. -/
theorem exists_of_compileFunction_error {constants : List String} {arities : List (String × Nat)}
    {f : B.Function} {body : B.Statement} {reason : B.CompileError} (does : f.body = some body)
    (refused : f.compile constants arities σ = .error reason) :
    ∃ s σ₁, body.compile s σ₁ = .error reason := by
  rw [B.Function.compile, does] at refused
  dsimp only at refused
  rw [B.freshLabel_bind] at refused
  rcases B.Emit.bind_eq_error.1 refused with refused | ⟨_, σ₁, -, refused⟩
  · cases refused
  · rcases B.Emit.bind_eq_error.1 refused with refused | ⟨code, σ₂, -, refused⟩
    · exact ⟨_, σ₁, refused⟩
    · cases refused

/-- Functions that are refused have one that is. -/
theorem exists_of_compileFunctions_error {constants : List String} {arities : List (String × Nat)}
    {fs : List B.Function} {reason : B.CompileError}
    (refused : B.compileFunctions constants arities fs σ = .error reason) :
    ∃ f ∈ fs, ∃ σ₁, f.compile constants arities σ₁ = .error reason := by
  induction fs generalizing σ with
  | nil =>
    rw [B.compileFunctions] at refused
    cases refused
  | cons f fs ih =>
    rw [B.compileFunctions] at refused
    rcases B.Emit.bind_eq_error.1 refused with refused | ⟨first, σ₁, -, refused⟩
    · exact ⟨f, List.mem_cons_self, σ, refused⟩
    · rcases B.Emit.bind_eq_error.1 refused with refused | ⟨rest, σ₂, -, refused⟩
      · obtain ⟨g, mem, again⟩ := ih refused
        exact ⟨g, List.mem_cons_of_mem _ mem, again⟩
      · cases refused

/-- A program with a first function that is refused, though its texts and its parameters are not,
has functions that are. -/
theorem exists_of_compile_error {p : B.Program} {constants : List String}
    {arities : List (String × Nat)} {reason : B.CompileError} (texts : p.constants = .ok constants)
    (known : B.aritiesFrom [] p.functions = .ok arities)
    (main : (arities.lookup "main").isNone = false) (refused : p.compile = .error reason) :
    ∃ σ, B.compileFunctions constants arities p.functions σ = .error reason := by
  rw [B.Program.compile, texts, known] at refused
  rcases Except.bind_eq_error.1 refused with refused | ⟨_, is, refused⟩
  · cases refused
  cases is
  rcases Except.bind_eq_error.1 refused with refused | ⟨_, is, refused⟩
  · cases refused
  cases is
  simp only [main] at refused
  rcases Except.bind_eq_error.1 refused with refused | ⟨_, -, refused⟩
  · replace refused := Except.map_eq_error.1 refused
    rw [B.freshLabel_bind] at refused
    rcases B.Emit.bind_eq_error.1 refused with refused | ⟨_, _, -, refused⟩
    · exact ⟨_, refused⟩
    · cases refused
  · cases refused

end

namespace Outline.Renders

variable {o : Outline} {names : List String} {value : String → Int32} {t u : Tree}
  (renders : o.Renders names value t) (shaken : language.shaker.shakeInner t = [u])
include renders

/-- What is read from the tree of the program. -/
theorem program_eq : B.Program.ofTree (B.language.shake o.tree) = ⟨[], [o.typed]⟩ :=
  Outline.program_eq renders.returns.settles (fun a mem => (renders.spells a mem).settles)
    renders.proper

/-- No name is that of a function of the host. -/
theorem arities_eq : B.aritiesFrom [] [o.typed] = .ok [("main", 0)] := by
  have name : o.typed.name = "main" := renders.name
  have takes : o.typed.parameters = [] := rfl
  rw [B.aritiesFrom, takes, name]
  rfl

/-- The statements of the program are compiled if the program is. -/
theorem exists_compiled {l : Assembly.Listing}
    (compiled : B.compile (B.language.shake o.tree) = .ok l) :
    ∃ s σ code σ', B.compileBlock s
      (o.assigned.map Assigned.statement ++ [.ret (some (summand o.value))]) σ = .ok (code, σ') := by
  rw [B.compile, renders.program_eq] at compiled
  obtain ⟨arities, code, σ', -, -, -, compiled, -⟩ := B.Program.compile_eq_ok compiled
  obtain ⟨first, σ₁, rest, compiled, -⟩ := B.compileFunctions_cons compiled
  obtain ⟨body, inner, is, compiled, -⟩ := B.Function.compile_eq_ok compiled
  obtain rfl : o.body = body := Option.some.inj is
  exact ⟨_, _, _, _, B.Statement.compile_block compiled⟩

include shaken in
/-- A program that can be compiled is plain, and assigns its variables before it reads them. -/
theorem plain_definite {l : Assembly.Listing}
    (compiled : B.compile (B.language.shake o.tree) = .ok l) :
    (B.Program.ofTree (B.language.shake o.tree)).plain
      ∧ (B.Program.ofTree (B.language.shake o.tree)).definite := by
  obtain ⟨s, σ, code, σ', compiled⟩ := renders.exists_compiled compiled
  have ofBlock {b : B.Statement} := exists_of_compileBlock (b := b) compiled
  have twins := renders.returns.summand shaken
  rw [renders.program_eq]
  constructor
  · have plain : B.plainBlock (o.assigned.map Assigned.statement ++ [.ret (some (summand o.value))]) := by
      rw [plainBlock_eq, List.all_eq_true]
      refine List.forall_mem_append.2 ⟨List.forall_mem_map.2 fun a mem => ?_, List.forall_mem_singleton.2 ?_⟩
      · obtain ⟨x, twins, -⟩ := (renders.spells a mem).exists_twin
        obtain ⟨σ₁, r, done⟩ := ofBlock (List.mem_append_left _ (List.mem_map_of_mem mem))
        obtain ⟨_, _, done, -⟩ := B.Statement.compile_assign done
        exact twins.plain done
      · obtain ⟨σ₁, r, done⟩ := ofBlock (List.mem_append_right _ (List.mem_singleton_self _))
        obtain ⟨_, _, done, -⟩ := B.Statement.compile_ret_some done
        exact twins.plain done
    simp [B.Program.plain, Outline.typed, Outline.body, B.Statement.plain, plain]
  · have definite : B.definiteBlock (.of [])
        (o.assigned.map Assigned.statement ++ [.ret (some (summand o.value))]) := by
      refine definite_assigned renders.spells fun known' _ each => twins.definite fun name mem => ?_
      rw [← renders.targets] at mem
      obtain ⟨a, among, rfl⟩ := List.mem_map.1 mem
      exact each a among
    simp [B.Program.definite, Outline.typed, Outline.body, B.Statement.definite, definite]

include shaken in
/-- A program that is refused for a division by zero is that of an expression that divides by
zero. -/
theorem divides_of_refused {env : String → Option Int32}
    (same : ∀ name ∈ names, env name = some (value name)) {span : Source.Span}
    (refused : B.compile (B.language.shake o.tree) = .error (.divisionByZero span)) :
    ∃ span', eval env (ofTree u) = .error (.divisionByZero span') := by
  rw [B.compile, renders.program_eq] at refused
  have block : ∃ s σ, B.compileBlock s
      (o.assigned.map Assigned.statement ++ [.ret (some (summand o.value))]) σ
        = .error (.divisionByZero span) := by
    have constants : B.Program.constants ⟨[], [o.typed]⟩ = .ok [] := rfl
    obtain ⟨σ, refused⟩ := exists_of_compile_error constants renders.arities_eq rfl refused
    obtain ⟨f, mem, σ, refused⟩ := exists_of_compileFunctions_error refused
    obtain rfl := List.mem_singleton.1 mem
    have does : o.typed.body = some o.body := rfl
    obtain ⟨s, σ, refused⟩ := exists_of_compileFunction_error does refused
    rw [body, B.Statement.compile, B.releaseTemporaries_bind] at refused
    exact ⟨s, _, refused⟩
  obtain ⟨s, σ, refused⟩ := block
  obtain ⟨b, mem, σ₁, refused⟩ := exists_of_compileBlock_error refused
  rcases List.mem_append.1 mem with mem | mem
  · -- an assignment is of a number, which divides by nothing
    obtain ⟨a, among, rfl⟩ := List.mem_map.1 mem
    obtain ⟨x, twins, known⟩ := (renders.spells a among).exists_twin
    have refused : (summand a.value).compile s σ₁.released = .error (.divisionByZero span) := by
      rw [Assigned.statement, B.Statement.compile, B.releaseTemporaries_bind] at refused
      rcases B.Emit.bind_eq_error.1 refused with refused | ⟨_, _, -, refused⟩
      · exact refused
      · cases refused
    have unbound : ∀ name ∈ ([] : List String), ((fun _ => none : String → Option Int32) name).isSome :=
      List.forall_mem_nil _
    obtain ⟨span', divides⟩ := twins.divides_of_compile unbound refused
    rw [known] at divides
    cases divides
  · -- what is returned is the expression itself
    obtain rfl := List.mem_singleton.1 mem
    have refused : (summand o.value).compile s σ₁.released = .error (.divisionByZero span) := by
      rw [B.Statement.compile, B.releaseTemporaries_bind] at refused
      rcases B.Emit.bind_eq_error.1 refused with refused | ⟨_, _, -, refused⟩
      · exact refused
      · cases refused
    refine (renders.returns.summand shaken).divides_of_compile (fun name mem => ?_) refused
    rw [same name mem]
    rfl

end Outline.Renders

/-! ## What is read -/

/-- The parts of the tree of an expression. -/
theorem exists_sum {source : String} {raw : Tree} (parsed : language.parse source = .ok raw) :
    ∃ ts t, lexicon.tokenize source.toList = .ok ts ∧ raw = .node "expr" none (some 0) [t]
      ∧ readGrammar.Derives (.rule Level.sum.rule) t ∧ t.label = none ∧ t.tokens = ts := by
  have grammar : language.grammar? = .ok readGrammar := grammar_eq
  obtain ⟨ts, cut, parsed⟩ := (Language.parse_eq_ok grammar rfl).1 parsed
  obtain ⟨derived, unlabeled, -⟩ := Grammar.parseTokens_sound parsed
  have tokens := Grammar.tokens_of_parseTokens (by decide +kernel) parsed
  obtain ⟨children, is, parts⟩ := derived.of_only rfl
  rw [unlabeled] at is
  subst is
  obtain ⟨t, others, rfl, first, rest⟩ := parts.of_cons
  obtain rfl := rest.of_nil
  obtain ⟨derived, bare⟩ := first.of_once rfl
  exact ⟨ts, t, cut, rfl, derived, bare, by simpa using tokens⟩

/-- What the tokens of an expression are like. -/
theorem known_of_whole {names : List String} {token : Token} (whole : lexicon.Whole token)
    (covers : token.type = "identifier" → token.lexeme ∈ names) : Known names token := by
  refine ⟨fun sign type => ?_, covers⟩
  obtain ⟨s, mem, agrees, reaches⟩ := whole.exists_token
  have is := Token.agrees_iff.1 agrees
  replace type := (congrArg Token.type is).symm.trans type
  rcases shape_cases mem with ⟨text, isSign, rfl⟩ | rfl | rfl
  · obtain rfl := Text.quote_injective type
    rw [is, ← String.toList_inj.1 (Lexicon.Shape.exact_of_reach? reaches)]
    rfl
  · have digits : "decimal_integer" = Text.quote sign := type
    exact absurd digits.symm (quote_ne sign (by decide))
  · have word : "identifier" = Text.quote sign := type
    exact absurd word.symm (quote_ne sign (by decide))

variable {source : String} {raw : Tree} {names : List String} {value : String → Int32}

/-- **What the program is read as.** -/
theorem exists_program (parsed : language.parse source = .ok raw)
    (words : ∀ name ∈ names, IsWord name) (noKeyword : ∀ name ∈ names, name ∉ B.keywords)
    (covers : ∀ token ∈ raw.tokens, token.type = "identifier" → token.lexeme ∈ names) :
    ∃ t o, raw = .node "expr" none (some 0) [t] ∧ Outline.Renders o names value t
      ∧ B.language.parse (program names value source) = .ok o.tree := by
  obtain ⟨ts, t, cut, rfl, derived, bare, rfl⟩ := exists_sum parsed
  replace covers : ∀ token ∈ t.tokens, token.type = "identifier" → token.lexeme ∈ names := by
    simpa using covers
  have counterpart := exists_counterpart .sum derived bare fun token mem =>
    known_of_whole (Lexicon.whole_of_tokensFrom cut token mem) (covers token mem)
  have held := holds_source cut fun token mem type => noKeyword _ (covers token mem type)
  obtain ⟨us, cut', agree⟩ := (holds_program words noKeyword value held).tokenize tidy_B
  obtain ⟨o, rfl, renders⟩ :=
    exists_outline counterpart rfl (forall₂_agrees_iff.1 agree).symm
  obtain ⟨depth, found⟩ := renders.returns.found
  have each : ∀ a ∈ o.assigned, ∃ depth', ∀ n ≥ depth', FoundFrom .sum n a.value := by
    intro a mem
    obtain ⟨_, corresponds⟩ := (renders.spells a mem).corresponds
    obtain ⟨depth', found⟩ := corresponds.found
    exact ⟨depth', fun n le => found.mono le⟩
  obtain ⟨depth', deep, each⟩ := Along.exists_depth depth each
  have reads := o.reads renders.proper (found.mono deep) fun a mem => each a mem depth' (Nat.le_refl _)
  exact ⟨t, o, rfl, renders, B.parse_eq_ok.2 ⟨_, cut', Grammar.parseTokens_of_ruleReads reads⟩⟩

/-! ## The theorem -/

/-- Whether a machine ends with the value of an expression, or stops at a division by zero if that
is why there is none. -/
structure EndsAs (start : Machine.State) (x : Except EvalError Int32) : Prop where
  /-- The machine ends with the value. -/
  exits : ∀ r, (∃ output, start.Exits r output) ↔ x = .ok r
  /-- The machine stops at a division just if evaluation does. -/
  divides : (∃ address output, start.Fails (.divisionByZero address) output)
    ↔ ∃ span, x = .error (.divisionByZero span)

/-- A machine that does what a program means ends as an expression does, if the program always
ends like it. -/
theorem endsAs_of_performs {p : B.Program} {start : Machine.State} {x : Except EvalError Int32}
    (performs : B.Performs p start) (same : ∀ n, p.run (n + 1) = (outcome x, #[]))
    (defined : outcome x ≠ .error .undefined) : EndsAs start x := by
  have ends := same 0
  rcases outcome_ne_undefined.1 defined with ⟨a, rfl⟩ | ⟨span, rfl⟩
  · have exits := performs.exits a #[] ⟨1, ends⟩
    refine ⟨fun r => ⟨fun ⟨output, other⟩ => congrArg _ (exits.unique other), ?_⟩, ?_, nofun⟩
    · rintro ⟨⟩
      exact ⟨_, exits⟩
    · rintro ⟨address, output, fails⟩
      exact absurd fails exits.not_fails
  · obtain ⟨address, fails⟩ := performs.divides #[] ⟨1, ends⟩
    refine ⟨fun r => ⟨fun ⟨output, exits⟩ => absurd fails exits.not_fails, nofun⟩,
      fun _ => ⟨span, rfl⟩, fun _ => ⟨address, _, fails⟩⟩

/-- **Evaluating and compiling agree.** The program gives values to names, among which are the
variables of the expression, and returns the expression. It can be read. If the compiler refuses it for a
division by zero, evaluation finds one. And if it is compiled, written, read and assembled, then a machine
that it is loaded in ends with the value of the expression, or stops at a division by zero if
evaluation does, as long as the stack is deep enough. The values may be any of 32 bits. -/
theorem evaluate_agrees {env : String → Option Int32} (parsed : language.parse source = .ok raw)
    (words : ∀ name ∈ names, IsWord name) (noKeyword : ∀ name ∈ names, name ∉ B.keywords)
    (given : ∀ name ∈ names, env name = some (value name))
    (covers : ∀ token ∈ raw.tokens, token.type = "identifier" → token.lexeme ∈ names) :
    ∃ t, B.language.parse (program names value source) = .ok t
      ∧ (∀ span, B.compile (B.language.shake t) = .error (.divisionByZero span) →
        ∃ span', evaluate env (language.shake raw) = .error (.divisionByZero span'))
      ∧ ∀ l u v code config input start, B.compile (B.language.shake t) = .ok l →
        Assembly.language.parse l.source = .ok u → (v = u ∨ v = Assembly.language.shake u) →
        Assembly.assemble v = .ok code → Machine.State.load config code input = .ok start →
        config.maxSteps = none → ¬ start.Overflows →
        EndsAs start (evaluate env (language.shake raw)) := by
  obtain ⟨t, o, rfl, renders, read⟩ :
      ∃ t o, raw = .node "expr" none (some 0) [t] ∧ Outline.Renders o names value t
        ∧ B.language.parse (program names value source) = .ok o.tree :=
    exists_program parsed words noKeyword covers
  obtain ⟨x, -, shaken, -, -⟩ := renders.returns.twins
  have evaluated : evaluate env (language.shake (.node "expr" none (some 0) [t])) = eval env (ofTree x) := by
    have kept : language.shaker.shakeList [t] = [x] := by
      rw [Shake.shakeList, shaken, Shake.shakeList, List.append_nil]
    rw [evaluate, Language.shake, Shake.shake, kept]
    show eval env (ofTree (.node "expr" none (some 0) [x])) = _
    rw [ofTree, ofSingle] <;> decide
  rw [evaluated]
  refine ⟨_, read, fun span refused => renders.divides_of_refused shaken given refused, ?_⟩
  intro l u v code config input start compiled again form assembled loaded unlimited keeps
  have same := B.toOption_assemble read compiled again form
  rw [assembled, Except.toOption_ok] at same
  split at same
  case isFalse => cases same
  have assembled : l.assemble = .ok code := Except.toOption_eq_some.1 same.symm
  obtain ⟨plain, definite⟩ := renders.plain_definite shaken compiled
  have alone : ∀ f, (B.Program.ofTree (B.language.shake o.tree)).function? "main" = some f →
      f.parameters = [] := by
    intro f main
    rw [renders.program_eq] at main
    obtain rfl := List.mem_singleton.1 (List.mem_of_find?_eq_some main)
    rfl
  have performs := B.performs_of_compile compiled assembled loaded unlimited keeps plain definite alone
  have defined := B.Program.run_defined compiled plain definite alone 1
  rw [renders.program_eq] at performs defined
  rw [renders.run_eq shaken given] at defined
  exact endsAs_of_performs performs (renders.run_eq shaken given) defined

/-- The program that a quotient with a variable is compiled to. -/
def quotientProgram : Machine.Program where
  data := []
  code := [
    0x80610008, 0xf000000c, 0xe0738000, 0xe0080000, 0x8042fff4, 0xd1880000, 0x80800007, 0xd2080004,
    0xc2880004, 0x8c850002, 0xd2080008, 0xc7080008, 0xf0000008, 0x81c00000, 0xc1880000, 0x8042000c,
    0xe008c000, 0x81c00000, 0xe0080000]

theorem evaluate_agrees_quotient : ∃ raw t l u start, language.parse "x/2" = .ok raw
    ∧ (∀ token ∈ raw.tokens, token.type = "identifier" → token.lexeme ∈ ["x"])
    ∧ B.language.parse (program ["x"] (fun _ => 7) "x/2") = .ok t
    ∧ B.compile (B.language.shake t) = .ok l ∧ Assembly.language.parse l.source = .ok u
    ∧ Assembly.assemble u = .ok quotientProgram
    ∧ Machine.State.load {} quotientProgram [] = .ok start ∧ ¬ start.Overflows
    ∧ evaluate (fun _ => some 7) (language.shake raw) = .ok 3
    ∧ EndsAs start (evaluate (fun _ => some 7) (language.shake raw)) := by
  -- three evaluations give all that is needed: of reading, compiling and running
  have checked : ((lexicon.tokenize "x/2".toList).toOption.bind (readGrammar.parseAlong 40)).any
      fun raw => raw.tokens.all (fun token => token.type != "identifier" || token.lexeme == "x")
        && decide ((evaluate (fun _ => some 7) (language.shake raw)).toOption = some 3) := by
    decide +kernel
  obtain ⟨raw, found, checked⟩ := (Option.any_eq_true ..).1 checked
  obtain ⟨ts, cut, found⟩ := Option.bind_eq_some_iff.1 found
  obtain ⟨covers, value⟩ := Bool.and_eq_true_iff.1 checked
  replace value := Except.toOption_eq_some.1 (of_decide_eq_true value)
  replace covers : ∀ token ∈ raw.tokens, token.type = "identifier" → token.lexeme ∈ ["x"] := by
    simpa [or_iff_not_imp_left] using covers
  have grammar : language.grammar? = .ok readGrammar := grammar_eq
  have parsed : language.parse "x/2" = .ok raw := (Language.parse_eq_ok grammar rfl).2
    ⟨ts, Except.toOption_eq_some.1 cut, Grammar.parseTokens_of_parseAlong found⟩
  have words : ∀ name ∈ ["x"], IsWord name :=
    List.forall_mem_singleton.2 ⟨'x', [], rfl, by decide, nofun⟩
  have given : ∀ name ∈ ["x"], (fun _ => some 7 : String → Option Int32) name
      = some ((fun _ => 7 : String → Int32) name) := fun _ _ => rfl
  obtain ⟨t, read, -, agrees⟩ := evaluate_agrees parsed words (by decide) given covers
  have compiles : ((B.lexicon.tokenize (program ["x"] (fun _ => 7) "x/2").toList).toOption.bind
      (B.readGrammar.parseAlong 40)).any fun t => (B.compile (B.language.shake t)).toOption.any
        fun l => l.fits && l.assemble.toOption == some quotientProgram := by
    decide +kernel
  obtain ⟨t', found, compiles⟩ := (Option.any_eq_true ..).1 compiles
  obtain ⟨us, cut', found⟩ := Option.bind_eq_some_iff.1 found
  have read' := B.parse_eq_ok.2
    ⟨us, Except.toOption_eq_some.1 cut', Grammar.parseTokens_of_parseAlong found⟩
  obtain rfl := Except.ok.inj (read'.symm.trans read)
  simp only [Bool.and_eq_true, Option.any_eq_true, beq_iff_eq] at compiles
  obtain ⟨l, compiled, fits, assembled⟩ := compiles
  replace compiled := Except.toOption_eq_some.1 compiled
  obtain ⟨u, again, -⟩ := Assembly.Listing.parse_source (B.written_of_compile read compiled)
  have same : (Assembly.assemble u).toOption = _ := B.toOption_assemble read compiled again (.inl rfl)
  rw [if_pos fits, assembled] at same
  replace assembled := Except.toOption_eq_some.1 same
  have ran : (Machine.State.load {} quotientProgram []).toOption.bind (fun s => (s.runFor 20).2)
      = some (.ok 3) := by
    cbv
  obtain ⟨start, loaded, ran⟩ := Option.bind_eq_some_iff.1 ran
  replace loaded := Except.toOption_eq_some.1 loaded
  have keeps : ¬ start.Overflows := Machine.State.not_overflows_of_runFor ran
  exact ⟨raw, t', l, u, start, parsed, covers, read, compiled, again, assembled, loaded, keeps, value,
    agrees l u u quotientProgram {} [] start compiled again (.inl rfl) assembled loaded rfl keeps⟩

end Polyglot.Expr
