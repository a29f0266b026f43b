import Polyglot.Proofs.B.Emission
import Polyglot.Proofs.B.Semantics

/-!
# Programs that have a meaning

A program may be without meaning, since it reads a variable that has no value, or since
it uses what its semantics does not speak of. Both can be excluded by looking at it: what
it may use is *plain* (`Program.plain`), and every variable that it reads was assigned
before on all paths (`Program.definite`). A path may take any branch of a decision and go
round a loop any number of times, and what comes after a return is on no path at all.

A program that was compiled and is like this has a meaning (`Program.defined`): each
function that is called is there, and is called with as many arguments as it has
parameters.
-/

namespace Polyglot.B

open Polyglot.Source
open Polyglot.Assembly (Line)
open Polyglot.Machine (Syscall)

/-! ## Plain programs -/

mutual

/-- Whether an expression uses neither memory nor texts nor the host. -/
def Expression.plain : Expression → Bool
  | .integer .. | .variable .. => true
  | .negate operand | .isZero operand => operand.plain
  | .binary _ left right _ => left.plain && right.plain
  | .call callee arguments _ => (Syscall.ofName? callee).isNone && plainAll arguments
  | .text _ | .load .. | .broken .. => false

/-- Whether all expressions are plain. -/
def plainAll : List Expression → Bool
  | [] => true
  | e :: es => e.plain && plainAll es

end

/-- Whether an expression is plain, or prints a number. -/
def Expression.plainCall : Expression → Bool
  | .call "printi" arguments _ => plainAll arguments
  | e => e.plain

mutual

/-- Whether a statement uses neither memory nor texts nor the host, except for printing
numbers. -/
def Statement.plain : Statement → Bool
  | .block body => plainBlock body
  | .whileLoop condition body => condition.plain && body.plain
  | .ifThen condition positive => condition.plain && positive.plain
  | .ifElse condition positive negative => condition.plain && positive.plain && negative.plain
  | .ret none | .skip => true
  | .ret (some e) | .assign _ e => e.plain
  | .call e => e.plainCall
  | .store .. | .broken .. => false

/-- Whether all statements are plain. -/
def plainBlock : List Statement → Bool
  | [] => true
  | b :: bs => b.plain && plainBlock bs

end

/-- Whether the functions of a program use neither memory nor texts nor the host, except
for printing numbers. -/
def Program.plain (p : Program) : Bool :=
  p.functions.all fun f => f.body.all (·.plain)

/-! ## Assignment on all paths -/

/-- Which variables are known to have a value. -/
abbrev Known := String → Bool

namespace Known

/-- All variables are known, since the place is on no path. -/
def all : Known := fun _ => true

/-- The variables of a list are known. -/
def of (names : List String) : Known := fun name => names.contains name

/-- One more variable is known. -/
def add (known : Known) (name : String) : Known := fun other => other == name || known other

/-- What is known on both of two paths. -/
def meet (known known' : Known) : Known := fun name => known name && known' name

end Known

mutual

/-- Whether an expression reads only variables that are known. -/
def Expression.definite (known : Known) : Expression → Bool
  | .integer .. | .text _ => true
  | .variable name _ => known name
  | .negate operand | .isZero operand => operand.definite known
  | .binary _ left right _ => left.definite known && right.definite known
  | .call _ arguments _ => definiteAll known arguments
  | .load base _ _ => base.definite known
  | .broken before _ _ => definiteAll known before

/-- Whether expressions read only variables that are known. -/
def definiteAll (known : Known) : List Expression → Bool
  | [] => true
  | e :: es => e.definite known && definiteAll known es

end

mutual

/-- The variables that are known after a statement. -/
def Statement.after (known : Known) : Statement → Known
  | .block body => afterAll known body
  | .ifElse _ positive negative => (positive.after known).meet (negative.after known)
  | .ret _ => .all
  | .assign target _ => known.add target
  | .whileLoop .. | .ifThen .. | .store .. | .call _ | .skip | .broken .. => known

/-- The variables that are known after statements. -/
def afterAll (known : Known) : List Statement → Known
  | [] => known
  | b :: bs => afterAll (b.after known) bs

end

mutual

/-- Whether a statement reads only variables that are known, or that it has assigned on
all paths before. -/
def Statement.definite (known : Known) : Statement → Bool
  | .block body => definiteBlock known body
  | .whileLoop condition body => condition.definite known && body.definite known
  | .ifThen condition positive => condition.definite known && positive.definite known
  | .ifElse condition positive negative =>
    condition.definite known && positive.definite known && negative.definite known
  | .ret none | .skip => true
  | .ret (some e) | .assign _ e | .call e => e.definite known
  | .store base _ _ e => base.definite known && e.definite known
  | .broken before _ _ => definiteAll known before

/-- Whether statements read only variables that are known, or that they have assigned on
all paths before. -/
def definiteBlock (known : Known) : List Statement → Bool
  | [] => true
  | b :: bs => b.definite known && definiteBlock (b.after known) bs

end

/-- Whether the functions of a program assign every variable on every path before they
read it. -/
def Program.definite (p : Program) : Bool :=
  p.functions.all fun f => f.body.all (·.definite (.of f.parameters))

/-! ## Computations that have a meaning -/

/-- Whether a computation has a meaning, with something known of its result. -/
def Run.Defined {α : Type} (run : Run α) (post : α → Prop) : Prop :=
  ∀ out, match (run out).1 with
    | .ok a => post a
    | .error reason => reason ≠ .undefined

namespace Run.Defined

variable {α β : Type} {run : Run α} {post post' : α → Prop}

theorem give {a : α} (h : post a) : Run.Defined (.give a) post := fun _ => h

theorem stop {reason : Stop} (ne : reason ≠ .undefined) : Run.Defined (.stop reason) post :=
  fun _ => ne

theorem print {word : Int32} : Run.Defined (.print word) fun _ => True := fun _ => trivial

theorem andThen {f : α → Run β} {post' : β → Prop} (h : run.Defined post)
    (next : ∀ a, post a → (f a).Defined post') : (run.andThen f).Defined post' := by
  intro out
  have first := h out
  unfold Run.andThen
  generalize run out = outcome at first ⊢
  rcases outcome with ⟨reason | a, out'⟩
  · exact first
  · exact next a first out'

theorem weaken (h : run.Defined post) (implies : ∀ a, post a → post' a) : run.Defined post' := by
  intro out
  have first := h out
  generalize run out = outcome at first ⊢
  rcases outcome with ⟨reason | a, out'⟩
  · exact first
  · exact implies a first

end Run.Defined

/-- Whether the variables that are known have a value. -/
def Env.Covers (env : Env) (known : Known) : Prop :=
  ∀ name, known name = true → ∃ value, env name = some value

namespace Env.Covers

variable {env : Env} {known known' : Known}

theorem set (h : env.Covers known) {name : String} {value : Int32} :
    (env.set name value).Covers (known.add name) := by
  intro other eq
  unfold Env.set
  split
  · exact ⟨value, rfl⟩
  · rename_i ne
    refine h other ?_
    simpa [Known.add, ne] using eq

end Env.Covers

/-- What was known stays known. -/
def Known.Le (known known' : Known) : Prop := ∀ name, known name = true → known' name = true

theorem Known.meet_le_left {known known' : Known} : (known.meet known').Le known :=
  fun _ both => (Bool.and_eq_true_iff.1 both).1

theorem Known.meet_le_right {known known' : Known} : (known.meet known').Le known' :=
  fun _ both => (Bool.and_eq_true_iff.1 both).2

theorem Env.Covers.mono {env : Env} {known known' : Known} (h : env.Covers known')
    (le : known.Le known') : env.Covers known := fun name eq => h name (le name eq)

mutual

theorem Statement.le_after (b : Statement) (known : Known) : known.Le (b.after known) := by
  intro name eq
  cases b with
  | block body => exact le_afterAll body known name eq
  | ifElse condition positive negative =>
    exact Bool.and_eq_true_iff.2 ⟨positive.le_after known name eq, negative.le_after known name eq⟩
  | ret value => rfl
  | assign target e => exact Bool.or_eq_true_iff.2 (.inr eq)
  | whileLoop | ifThen | store | call | skip | broken => exact eq

theorem le_afterAll (bs : List Statement) (known : Known) : known.Le (afterAll known bs) := by
  intro name eq
  cases bs with
  | nil => exact eq
  | cons b bs => exact le_afterAll bs (b.after known) name (b.le_after known name eq)

end

/-- Whether all calls of functions that there are have a meaning. -/
def Calls.Defined (calls : Calls) (arities : List (String × Nat)) : Prop :=
  ∀ name count, arities.lookup name = some count →
    ∀ values : List Int32, values.length = count → (calls name values).Defined fun _ => True

section

variable {s : Scope} {calls : Calls} {env : Env} {known : Known}

mutual

/-- **An expression that was compiled**, is plain and reads only variables that have a
value has a meaning. -/
theorem Expression.defined (calling : calls.Defined s.arities) (covers : env.Covers known)
    (e : Expression) {σ σ' : Supply} {result : List Line × Value}
    (compiled : e.compile s σ = .ok (result, σ')) (plain : e.plain) (definite : e.definite known) :
    (e.eval calls env).Defined fun _ => True := by
  cases e with
  | integer value span => exact .give trivial
  | «variable» name span =>
    obtain ⟨value, eq⟩ := covers name definite
    rw [Expression.eval, eq]
    exact .give trivial
  | negate e =>
    obtain ⟨_, _, _, compiled', -⟩ := Expression.compile_negate compiled
    exact (e.defined calling covers compiled' plain definite).andThen fun _ _ => .give trivial
  | isZero e =>
    obtain ⟨_, _, _, compiled', -⟩ := Expression.compile_isZero compiled
    exact (e.defined calling covers compiled' plain definite).andThen fun _ _ => .give trivial
  | binary op left right span =>
    obtain ⟨_, _, _, _, _, _, first, second, -⟩ := Expression.compile_binary compiled
    simp only [Expression.plain, Expression.definite, Bool.and_eq_true] at plain definite
    refine (left.defined calling covers first plain.1 definite.1).andThen fun a _ =>
      (right.defined calling covers second plain.2 definite.2).andThen fun b _ => ?_
    cases op.compute? a b with
    | some value => exact .give trivial
    | none => exact .stop (by decide)
  | call callee arguments span =>
    obtain ⟨_, _, _, arity, compiled', -⟩ := Expression.compile_call compiled
    simp only [Expression.plain, Expression.definite, Bool.and_eq_true,
      Option.isNone_iff_eq_none] at plain definite
    refine (definedAll calling covers arguments compiled' plain.2 definite).andThen
      fun values length => ?_
    rw [plain.1, Option.isSome_none, if_neg (by decide)]
    exact calling callee values.length (length ▸ Scope.lookup_of_arity arity plain.1) values rfl
  | text | load | broken => cases plain

theorem definedAll (calling : calls.Defined s.arities) (covers : env.Covers known)
    (es : List Expression) {σ σ' : Supply} {result : List Line × List Value}
    (compiled : compileAll s es σ = .ok (result, σ')) (plain : plainAll es)
    (definite : definiteAll known es) :
    (evalAll calls env es).Defined fun values => values.length = es.length := by
  cases es with
  | nil => exact .give rfl
  | cons e es =>
    obtain ⟨_, _, _, _, _, first, others, -⟩ := compileAll_cons compiled
    simp only [plainAll, definiteAll, Bool.and_eq_true] at plain definite
    exact (e.defined calling covers first plain.1 definite.1).andThen fun value _ =>
      (definedAll calling covers es others plain.2 definite.2).andThen fun values length =>
        .give (congrArg (· + 1) length)

end

/-- A call that stands alone has a meaning. -/
theorem Expression.perform_defined (calling : calls.Defined s.arities) (covers : env.Covers known)
    (e : Expression) {σ σ' : Supply} {result : List Line × Value}
    (compiled : e.compile s σ = .ok (result, σ')) (plain : e.plainCall)
    (definite : e.definite known) : (e.perform calls env).Defined fun _ => True := by
  unfold perform
  split
  · rename_i argument span
    obtain ⟨_, _, _, -, compiled', -⟩ := compile_call compiled
    obtain ⟨_, _, _, _, _, first, -, -⟩ := compileAll_cons compiled'
    simp only [plainCall, plainAll, Expression.definite, definiteAll, Bool.and_true] at plain definite
    exact (argument.defined calling covers first plain definite).andThen fun _ _ => .print
  · rename_i other
    have plain' : e.plain := by
      unfold plainCall at plain
      split at plain
      · rename_i arguments span
        obtain ⟨_, values, _, arity, -⟩ := compile_call compiled
        have one : arguments.length = 1 := (Except.ok.inj arity).symm
        obtain ⟨argument, rfl⟩ := List.length_eq_one_iff.1 one
        exact absurd rfl (other argument span)
      · exact plain
    exact (e.defined calling covers compiled plain' definite).andThen fun _ _ => .give trivial

/-- What is known of how a statement ends: the variables that should have a value have
one. -/
def Flow.Covers (known : Known) : Flow → Prop
  | .next env => env.Covers known
  | .left _ => True

theorem Flow.Covers.mono {flow : Flow} {known known' : Known} (h : flow.Covers known')
    (le : known.Le known') : flow.Covers known := by
  cases flow with
  | next env => exact Env.Covers.mono h le
  | left value => trivial

theorem iterate_defined {test : Env → Run Int32} {body : Env → Run Flow}
    (tests : ∀ env, env.Covers known → (test env).Defined fun _ => True)
    (does : ∀ env, env.Covers known → (body env).Defined (·.Covers known)) (allowance : Nat)
    (covers : env.Covers known) : (iterate test body allowance env).Defined (·.Covers known) := by
  induction allowance generalizing env with
  | zero => exact .stop (by decide)
  | succ allowance ih =>
    refine (tests env covers).andThen fun a _ => ?_
    split
    · exact .give covers
    · refine (does env covers).andThen fun flow h => ?_
      cases flow with
      | next env' => exact ih h
      | left value => exact .give trivial

mutual

/-- **A statement that was compiled**, is plain and reads only variables that have a value
has a meaning, and the variables that it should assign have a value afterwards. -/
theorem Statement.defined (calling : calls.Defined s.arities) (allowance : Nat) (b : Statement)
    {known : Known} {env : Env} (covers : env.Covers known) {σ σ' : Supply} {code : List Line}
    (compiled : b.compile s σ = .ok (code, σ')) (plain : b.plain) (definite : b.definite known) :
    (b.exec calls allowance env).Defined (·.Covers (b.after known)) := by
  cases b with
  | block body =>
    exact definedBlock calling allowance body covers (Statement.compile_block compiled) plain definite
  | whileLoop condition body =>
    obtain ⟨_, _, _, _, _, _, tested, compiled', -⟩ := Statement.compile_whileLoop compiled
    simp only [Statement.plain, Statement.definite, Bool.and_eq_true] at plain definite
    -- what is known before the loop is still known after each round
    refine iterate_defined (fun env covers =>
      condition.defined calling covers tested plain.1 definite.1) (fun env covers => ?_) allowance covers
    exact (body.defined calling allowance covers compiled' plain.2 definite.2).weaken
      fun flow h => h.mono (body.le_after known)
  | ifThen condition positive =>
    obtain ⟨_, _, _, _, _, tested, compiled', -⟩ := Statement.compile_ifThen compiled
    simp only [Statement.plain, Statement.definite, Bool.and_eq_true] at plain definite
    refine (condition.defined calling covers tested plain.1 definite.1).andThen fun a _ => ?_
    split
    · exact .give covers
    · exact (positive.defined calling allowance covers compiled' plain.2 definite.2).weaken
        fun flow h => h.mono (positive.le_after known)
  | ifElse condition positive negative =>
    obtain ⟨_, _, _, _, _, _, _, _, tested, compiled₁, compiled₂, -⟩ := Statement.compile_ifElse compiled
    simp only [Statement.plain, Statement.definite, Bool.and_eq_true] at plain definite
    refine (condition.defined calling covers tested plain.1.1 definite.1.1).andThen fun a _ => ?_
    split
    · exact (negative.defined calling allowance covers compiled₂ plain.2 definite.2).weaken
        fun flow h => h.mono Known.meet_le_right
    · exact (positive.defined calling allowance covers compiled₁ plain.1.2 definite.1.2).weaken
        fun flow h => h.mono Known.meet_le_left
  | ret value =>
    cases value with
    | none => exact .give trivial
    | some e =>
      obtain ⟨_, _, compiled', -⟩ := Statement.compile_ret_some compiled
      exact (e.defined calling covers compiled' plain definite).andThen fun _ _ => .give trivial
  | assign target e =>
    obtain ⟨_, _, compiled', -⟩ := Statement.compile_assign compiled
    exact (e.defined calling covers compiled' plain definite).andThen fun _ _ => .give covers.set
  | call e =>
    obtain ⟨_, compiled'⟩ := Statement.compile_call compiled
    exact (e.perform_defined calling covers compiled' plain definite).andThen fun _ _ => .give covers
  | skip => exact .give covers
  | store | broken => cases plain

theorem definedBlock (calling : calls.Defined s.arities) (allowance : Nat) (bs : List Statement)
    {known : Known} {env : Env} (covers : env.Covers known) {σ σ' : Supply} {code : List Line}
    (compiled : compileBlock s bs σ = .ok (code, σ')) (plain : plainBlock bs)
    (definite : definiteBlock known bs) :
    (execAll calls allowance bs env).Defined (·.Covers (afterAll known bs)) := by
  cases bs with
  | nil => exact .give covers
  | cons b bs =>
    obtain ⟨_, _, _, compiled₁, compiled₂, -⟩ := compileBlock_cons compiled
    simp only [plainBlock, definiteBlock, Bool.and_eq_true] at plain definite
    refine (b.defined calling allowance covers compiled₁ plain.1 definite.1).andThen fun flow h => ?_
    cases flow with
    | next env' => exact definedBlock calling allowance bs h compiled₂ plain.2 definite.2
    | left value => exact .give trivial

end

end

/-! ## Functions and programs -/

/-- Binding keeps the values of variables, or gives them others. -/
theorem Env.isSome_bind {env : Env} {names : List String} {values : List Int32} {name : String}
    (h : ∃ value, env name = some value) : ∃ value, env.bind names values name = some value := by
  fun_induction Env.bind env names values with
  | case1 env other names value values ih =>
    refine ih ?_
    unfold Env.set
    split
    · exact ⟨value, rfl⟩
    · exact h
  | case2 => exact h

/-- The parameters have a value at the start of a call. -/
theorem Env.covers_bind {env : Env} {names : List String} {values : List Int32}
    (length : values.length = names.length) : (env.bind names values).Covers (.of names) := by
  intro name eq
  induction names generalizing env values with
  | nil => cases eq
  | cons other names ih =>
    cases values with
    | nil => cases length
    | cons value values =>
      simp only [Known.of, List.contains_cons, Bool.or_eq_true, beq_iff_eq] at eq
      obtain rfl | eq := eq
      · exact (Env.isSome_bind ⟨value, if_pos rfl⟩ : ∃ a, (env.set name value).bind names values name = some a)
      · exact ih (Nat.succ.inj length) eq

variable {p : Program} {constants : List String} {arities : List (String × Nat)}
  {σ σ' : Supply} {code : List Line}

/-- **Calls of the functions of a program** have a meaning, with any allowance. -/
theorem Program.call_defined (known : aritiesFrom [] p.functions = .ok arities)
    (done : compileFunctions constants arities p.functions σ = .ok (code, σ'))
    (plain : p.plain) (definite : p.definite) (allowance : Nat) :
    (p.call allowance).Defined arities := by
  induction allowance with
  | zero => exact fun _ _ _ _ _ => .stop (by decide)
  | succ allowance ih =>
    intro name count there values length
    obtain ⟨f, found, -, rfl, -⟩ := find?_of_aritiesFrom known rfl there
    have mem := List.mem_of_find?_eq_some found
    obtain ⟨_, _, _, _, _, compiled, -⟩ := compileFunctions_mem done mem
    obtain ⟨body, _, eq, compiled', -⟩ := Function.compile_eq_ok compiled
    have plain' := List.all_eq_true.1 plain f mem
    have definite' := List.all_eq_true.1 definite f mem
    rw [eq, Option.all_some] at plain' definite'
    simp only [Program.call, Program.function?, found, Function.run, eq]
    refine (body.defined ih allowance (Env.covers_bind length) compiled' plain' definite').andThen
      fun flow _ => ?_
    cases flow with
    | next env => exact .give trivial
    | left value => exact .give trivial

/-- **A program that was compiled**, is plain and assigns its variables before it reads
them has a meaning. -/
theorem Program.run_defined {l : Assembly.Listing} (done : p.compile = .ok l) (plain : p.plain)
    (definite : p.definite) (alone : ∀ f, p.function? "main" = some f → f.parameters = [])
    (allowance : Nat) : (p.run allowance).1 ≠ .error .undefined := by
  obtain ⟨arities, code, σ', -, known, there, compiled, -⟩ := Program.compile_eq_ok done
  obtain ⟨count, there⟩ := Option.isSome_iff_exists.1 there
  obtain ⟨f, found, -, rfl, -⟩ := find?_of_aritiesFrom known rfl there
  have defined := p.call_defined known compiled plain definite allowance "main" _ there []
    (by rw [alone f found]; rfl) #[]
  intro eq
  unfold Program.run at eq
  rw [eq] at defined
  exact defined rfl

end Polyglot.B
