import Polyglot.B.Syntax
import Polyglot.Machine.State

/-!
# What programs of B mean

The meaning of a program is given by running its typed form directly. A computation
(`Run`) goes from the output so far to the output afterwards, and either has a result
or stops, and also a computation that stops has an output.

Numbers are words of 32 bits. Operators and calls take their operands from left to
right. Variables are local: a call starts with its arguments and nothing else, and a
variable that was not assigned has no value. A function that is left at its end gives
zero.

Running takes an allowance. It is the number of times each loop may go round and the
number of calls that may be inside each other, so that everything else is a recursion
on the syntax. A program that runs for ever is one that uses up every allowance
(`Stop.exhausted`).

What this does not speak of has no meaning (`Stop.undefined`): memory, texts, and all
calls to the host but one, which is `printi` standing alone.
-/

namespace Polyglot.B

open Polyglot.Machine (Syscall)

/-- Why a computation stops before its end. -/
inductive Stop where
  /-- A divisor is zero. -/
  | divisionByZero
  /-- The allowance is used up. -/
  | exhausted
  /-- There is no meaning. -/
  | undefined
  deriving DecidableEq, Repr

/-- A computation that may write something and may stop. -/
abbrev Run (α : Type) := Array UInt8 → Except Stop α × Array UInt8

namespace Run

variable {α β : Type}

/-- The computation that gives a value. -/
def give (a : α) : Run α := fun out => (.ok a, out)

/-- The computation that stops. -/
def stop (reason : Stop) : Run α := fun out => (.error reason, out)

/-- One computation, and then another. -/
def andThen (x : Run α) (f : α → Run β) : Run β := fun out =>
  match x out with
  | (.ok a, out) => f a out
  | (.error reason, out) => (.error reason, out)

/-- Writes a number. -/
def print (word : Int32) : Run Unit := fun out => (.ok (), Machine.State.printWord out word)

/-- A value, if there is one. -/
def ofOption (reason : Stop) : Option α → Run α
  | some a => give a
  | none => stop reason

end Run

/-- The values of the variables of a call. -/
abbrev Env := String → Option Int32

namespace Env

/-- No variable has a value. -/
def empty : Env := fun _ => none

/-- One variable is given a value. -/
def set (env : Env) (name : String) (value : Int32) : Env :=
  fun other => if other = name then some value else env other

/-- Variables are given values, one after the other. -/
def bind (env : Env) : List String → List Int32 → Env
  | name :: names, value :: values => (env.set name value).bind names values
  | _, _ => env

end Env

/-- How a statement ends. -/
inductive Flow where
  /-- The next statement follows. -/
  | next (env : Env)
  /-- The function is left with a value. -/
  | left (value : Int32)

/-- What calls do. -/
abbrev Calls := String → List Int32 → Run Int32

mutual

/-- The value of an expression. -/
def Expression.eval (calls : Calls) (env : Env) : Expression → Run Int32
  | .integer value _ => .give (Int32.ofInt value)
  | .variable name _ => .ofOption .undefined (env name)
  | .negate operand => (operand.eval calls env).andThen fun a => .give (-a)
  | .isZero operand => (operand.eval calls env).andThen fun a => .give (truth (a == 0))
  | .binary op left right _ =>
    (left.eval calls env).andThen fun a =>
      (right.eval calls env).andThen fun b => .ofOption .divisionByZero (op.compute? a b)
  | .call callee arguments _ =>
    (evalAll calls env arguments).andThen fun values =>
      if (Syscall.ofName? callee).isSome then .stop .undefined else calls callee values
  | .text _ | .load .. | .broken .. => .stop .undefined

/-- The values of expressions, from left to right. -/
def evalAll (calls : Calls) (env : Env) : List Expression → Run (List Int32)
  | [] => .give []
  | e :: es =>
    (e.eval calls env).andThen fun value =>
      (evalAll calls env es).andThen fun values => .give (value :: values)

end

/-- A call whose value is not used: one to the host, or any other. -/
def Expression.perform (calls : Calls) (env : Env) (e : Expression) : Run Unit :=
  match e with
  | .call "printi" [argument] _ => (argument.eval calls env).andThen .print
  | e => (e.eval calls env).andThen fun _ => .give ()

/-- Repeats a body as long as a test does not give zero, but no more often than the
allowance says. -/
def iterate (test : Env → Run Int32) (body : Env → Run Flow) : Nat → Env → Run Flow
  | 0, _ => .stop .exhausted
  | allowance + 1, env =>
    (test env).andThen fun a =>
      if a = 0 then .give (.next env)
      else (body env).andThen fun
        | .next env => iterate test body allowance env
        | .left value => .give (.left value)

mutual

/-- What a statement does. -/
def Statement.exec (calls : Calls) (allowance : Nat) : Statement → Env → Run Flow
  | .block body, env => execAll calls allowance body env
  | .whileLoop condition body, env =>
    iterate (fun env => condition.eval calls env) (fun env => body.exec calls allowance env)
      allowance env
  | .ifThen condition positive, env =>
    (condition.eval calls env).andThen fun a =>
      if a = 0 then .give (.next env) else positive.exec calls allowance env
  | .ifElse condition positive negative, env =>
    (condition.eval calls env).andThen fun a =>
      if a = 0 then negative.exec calls allowance env else positive.exec calls allowance env
  | .ret none, _ => .give (.left 0)
  | .ret (some e), env => (e.eval calls env).andThen fun a => .give (.left a)
  | .assign target e, env =>
    (e.eval calls env).andThen fun a => .give (.next (env.set target a))
  | .call e, env => (e.perform calls env).andThen fun _ => .give (.next env)
  | .skip, env => .give (.next env)
  | .store .., _ | .broken .., _ => .stop .undefined

/-- What statements do, one after the other. -/
def execAll (calls : Calls) (allowance : Nat) : List Statement → Env → Run Flow
  | [], env => .give (.next env)
  | b :: bs, env =>
    (b.exec calls allowance env).andThen fun
      | .next env => execAll calls allowance bs env
      | .left value => .give (.left value)

end

/-- What a call of a function does, given what the calls inside it do. -/
def Function.run (calls : Calls) (allowance : Nat) (f : Function) (values : List Int32) :
    Run Int32 :=
  match f.body with
  | none => .stop .undefined
  | some body =>
    (body.exec calls allowance (Env.empty.bind f.parameters values)).andThen fun
      | .next _ => .give 0
      | .left value => .give value

/-- The function of a program with a name. -/
def Program.function? (p : Program) (name : String) : Option Function :=
  p.functions.find? (·.name == name)

/-- What a call does. -/
def Program.call (p : Program) : Nat → Calls
  | 0 => fun _ _ => .stop .exhausted
  | allowance + 1 => fun name values =>
    match p.function? name with
    | none => .stop .undefined
    | some f => f.run (p.call allowance) allowance values

/-- What a program does: it calls the function `main`. -/
def Program.run (p : Program) (allowance : Nat) : Except Stop Int32 × Array UInt8 :=
  p.call allowance "main" [] #[]

/-! ## Larger allowances -/

/-- Whether a computation does the same as another one, unless it uses up its
allowance. -/
def Run.Within {α : Type} (run run' : Run α) : Prop :=
  ∀ out, (run out).1 = .error .exhausted ∨ run' out = run out

namespace Run.Within

variable {α β : Type} {run run' : Run α}

theorem refl : run.Within run := fun _ => .inr rfl

theorem exhausted : Run.Within (.stop .exhausted) run := fun _ => .inl rfl

theorem andThen {f f' : α → Run β} (h : run.Within run') (next : ∀ a, (f a).Within (f' a)) :
    (run.andThen f).Within (run'.andThen f') := by
  intro out
  unfold Run.andThen
  rcases h out with eq | eq
  · generalize run out = outcome at eq ⊢
    obtain ⟨_, out'⟩ := outcome
    obtain rfl := eq
    exact .inl rfl
  · rw [eq]
    rcases run out with ⟨reason | a, out'⟩
    · exact .inr rfl
    · exact next a out'

end Run.Within

section

variable {calls calls' : Calls}

mutual

theorem Expression.eval_within
    (larger : ∀ name values, (calls name values).Within (calls' name values))
    (env : Env) (e : Expression) :
    (e.eval calls env).Within (e.eval calls' env) := by
  cases e with
  | negate e => exact (e.eval_within larger env).andThen fun _ => .refl
  | isZero e => exact (e.eval_within larger env).andThen fun _ => .refl
  | binary op left right span =>
    exact (left.eval_within larger env).andThen fun a => (right.eval_within larger env).andThen fun b => .refl
  | call callee arguments span =>
    refine (evalAll_within larger env arguments).andThen fun values => ?_
    split
    · exact .refl
    · exact larger callee values
  | integer | «variable» | text | load | broken => exact .refl

theorem evalAll_within
    (larger : ∀ name values, (calls name values).Within (calls' name values))
    (env : Env) (es : List Expression) :
    (evalAll calls env es).Within (evalAll calls' env es) := by
  cases es with
  | nil => exact .refl
  | cons e es =>
    exact (e.eval_within larger env).andThen fun _ => (evalAll_within larger env es).andThen fun _ => .refl

end

theorem Expression.perform_within
    (larger : ∀ name values, (calls name values).Within (calls' name values))
    (env : Env) (e : Expression) :
    (e.perform calls env).Within (e.perform calls' env) := by
  unfold perform
  split
  · rename_i argument span
    exact (argument.eval_within larger env).andThen fun _ => .refl
  · exact (e.eval_within larger env).andThen fun _ => .refl

theorem iterate_within {test test' : Env → Run Int32} {body body' : Env → Run Flow}
    (tests : ∀ env, (test env).Within (test' env)) (does : ∀ env, (body env).Within (body' env))
    {allowance allowance' : Nat} (le : allowance ≤ allowance') (env : Env) :
    (iterate test body allowance env).Within (iterate test' body' allowance' env) := by
  induction allowance generalizing allowance' env with
  | zero => exact .exhausted
  | succ allowance ih =>
    cases allowance' with
    | zero => exact absurd le (Nat.not_succ_le_zero _)
    | succ allowance' =>
      refine (tests env).andThen fun a => ?_
      split
      · exact .refl
      · refine (does env).andThen fun flow => ?_
        cases flow with
        | next env => exact ih (Nat.le_of_succ_le_succ le) env
        | left value => exact .refl

mutual

theorem Statement.exec_within
    (larger : ∀ name values, (calls name values).Within (calls' name values))
    {allowance allowance' : Nat} (le : allowance ≤ allowance') (env : Env) (b : Statement) :
    (b.exec calls allowance env).Within (b.exec calls' allowance' env) := by
  cases b with
  | block body => exact execAll_within larger le env body
  | whileLoop condition body =>
    exact iterate_within (fun env => condition.eval_within larger env)
      (fun env => body.exec_within larger le env) le env
  | ifThen condition positive =>
    refine (condition.eval_within larger env).andThen fun a => ?_
    split
    · exact .refl
    · exact positive.exec_within larger le env
  | ifElse condition positive negative =>
    refine (condition.eval_within larger env).andThen fun a => ?_
    split
    · exact negative.exec_within larger le env
    · exact positive.exec_within larger le env
  | ret value =>
    cases value with
    | none => exact .refl
    | some e => exact (e.eval_within larger env).andThen fun _ => .refl
  | assign target e => exact (e.eval_within larger env).andThen fun _ => .refl
  | call e => exact (e.perform_within larger env).andThen fun _ => .refl
  | skip | store | broken => exact .refl

theorem execAll_within
    (larger : ∀ name values, (calls name values).Within (calls' name values))
    {allowance allowance' : Nat} (le : allowance ≤ allowance') (env : Env) (bs : List Statement) :
    (execAll calls allowance bs env).Within (execAll calls' allowance' bs env) := by
  cases bs with
  | nil => exact .refl
  | cons b bs =>
    refine (b.exec_within larger le env).andThen fun flow => ?_
    cases flow with
    | next env => exact execAll_within larger le env bs
    | left value => exact .refl

end

end

/-- Calls do the same with a larger allowance, unless they use up the smaller one. -/
theorem Program.call_within (p : Program) {allowance allowance' : Nat}
    (le : allowance ≤ allowance') (name : String) (values : List Int32) :
    (p.call allowance name values).Within (p.call allowance' name values) := by
  induction allowance generalizing allowance' name values with
  | zero => exact .exhausted
  | succ allowance ih =>
    cases allowance' with
    | zero => exact absurd le (Nat.not_succ_le_zero _)
    | succ allowance' =>
      have le' := Nat.le_of_succ_le_succ le
      unfold call
      split
      · exact .refl
      · rename_i f found
        unfold Function.run
        split
        · exact .refl
        · rename_i body there
          refine (body.exec_within (fun name values => ih le' name values) le' _).andThen
            fun flow => ?_
          cases flow <;> exact .refl

/-- **A run that does not use up its allowance** is the same with every larger one. -/
theorem Program.run_eq_of_le (p : Program) {allowance allowance' : Nat}
    (le : allowance ≤ allowance') (ends : (p.run allowance).1 ≠ .error .exhausted) :
    p.run allowance' = p.run allowance :=
  (p.call_within le "main" [] #[]).resolve_left ends

end Polyglot.B
