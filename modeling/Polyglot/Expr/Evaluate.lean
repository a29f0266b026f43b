import Polyglot.Expr.Language
import Polyglot.Source.Diagnostic

/-!
# Evaluating expressions

The tree of an expression is first read into a term. Reading a tree never fails:
a part of a tree that is no part of an expression becomes a *broken* term, which
holds the terms that come before the defect. So a defect comes to light exactly
when evaluation gets to it, and an error in what comes before it is found first.

Words have 32 bits and arithmetic is modulo `2 ^ 32`; division goes towards zero
and the remainder has the sign of the dividend. A literal that needs more bits
loses the upper ones.
-/

namespace Polyglot

open Polyglot.Source

namespace Expr

/-- The operators on two terms. -/
inductive Operator where
  | add | sub | mul | div | mod
  deriving DecidableEq, Repr

/-- The operator with a sign. -/
def Operator.ofSign? (sign : String) : Option Operator :=
  match sign with
  | "+" => some .add
  | "-" => some .sub
  | "*" => some .mul
  | "/" => some .div
  | "%" => some .mod
  | _ => none

/-- What is wrong with a tree that is no expression. -/
inductive Defect where
  /-- A chain of operators has nothing in it. -/
  | emptyOperation
  /-- The last operator of a chain has nothing after it. -/
  | danglingOperator
  /-- A sign between two terms is no operator. -/
  | unknownOperator
  /-- The parts of a sign and a term, or of brackets, are not what they should be. -/
  | invalidUnary
  /-- A number has no value. -/
  | invalidNumber
  /-- A tree has a name that means nothing and not exactly one part. -/
  | unexpectedNode
  /-- A token stands where a term should be. -/
  | unexpectedToken
  deriving DecidableEq, Repr

/-- The wording of a defect. -/
def Defect.message : Defect → String
  | .emptyOperation => "empty operation"
  | .danglingOperator => "dangling operator"
  | .unknownOperator => "unknown operator"
  | .invalidUnary => "invalid unary expression"
  | .invalidNumber => "invalid number"
  | .unexpectedNode => "unexpected node"
  | .unexpectedToken => "unexpected token"

/-- A term. -/
inductive Term where
  /-- A literal. -/
  | number (value : Int)
  /-- A variable. -/
  | variable (name : String) (span : Span)
  /-- The negative of a term. -/
  | negate (operand : Term)
  /-- An operator between two terms; the span is that of the right one. -/
  | binary (op : Operator) (left right : Term) (rightSpan : Span)
  /-- No term, for a defect that comes after some others. -/
  | broken (before : List Term) (defect : Defect) (span : Span)
  deriving Repr, Inhabited

/-- Why a term has no value. -/
inductive EvalError where
  /-- A variable has no value. -/
  | unboundVariable (name : String) (span : Span)
  /-- A division, or a remainder, by zero. -/
  | divisionByZero (span : Span)
  /-- The tree is no expression. -/
  | malformed (defect : Defect) (span : Span)
  deriving DecidableEq, Repr

namespace EvalError

/-- The wording of the error. -/
def message : EvalError → String
  | unboundVariable name span => s!"{span}: unbound variable {name}"
  | divisionByZero span => s!"{span}: division by zero"
  | malformed defect span => s!"{span}: malformed tree: {defect.message}"

/-- The error as a diagnostic. -/
def toDiagnostic (e : EvalError) : Diagnostic := .error e.message

end EvalError

/-! ## Reading terms from trees -/

/-- Whether a tree is a token with exactly this text. -/
def isToken (t : Tree) (text : String) : Bool :=
  t.token?.any (·.lexeme == text)

/-- The text of the token of a leaf, or nothing for an inner tree. -/
def signOf (t : Tree) : String :=
  (t.token?.map (·.lexeme)).getD ""

/-- An operator between two terms, if the sign is one. -/
def binaryOf (whole sign operand : Tree) (left right : Term) : Term :=
  match Operator.ofSign? (signOf sign) with
  | some op => .binary op left right operand.span
  | none => .broken [left, right] .unknownOperator whole.span

/-- The term of a leaf. -/
def ofLeaf (name : String) (t : Tree) (token : Token) : Term :=
  match name with
  | "sum" => .broken [] .emptyOperation t.span
  | "product" => .broken [] .emptyOperation t.span
  | "unary" => .broken [] .invalidUnary t.span
  | "number" =>
    match token.int? with
    | some value => .number value
    | none => .broken [] .invalidNumber t.span
  | "variable" => .variable t.text t.span
  | _ => .broken [] .unexpectedToken t.span

mutual

/-- The term of a tree. -/
def ofTree : Tree → Term
  | .leaf name label terminal token => ofLeaf name (.leaf name label terminal token) token
  | .node name label choice children =>
    let t := Tree.node name label choice children
    match name with
    | "sum" => ofChain t children
    | "product" => ofChain t children
    | "unary" => ofUnary t children
    | "number" => .broken [] .invalidNumber t.span
    | "variable" => .variable t.text t.span
    | _ => ofSingle t children

/-- The term of the only tree below one that means nothing itself. -/
def ofSingle (whole : Tree) : List Tree → Term
  | [single] => ofTree single
  | _ => .broken [] .unexpectedNode whole.span

/-- The term of a sign and a term, or of brackets. -/
def ofUnary (whole : Tree) : List Tree → Term
  | [single] => ofTree single
  | [minus, operand] =>
    if isToken minus "-" then .negate (ofTree operand) else .broken [] .invalidUnary whole.span
  | [left, inner, right] =>
    if isToken left "(" && isToken right ")" then ofTree inner
    else .broken [] .invalidUnary whole.span
  | _ => .broken [] .invalidUnary whole.span

/-- The term of a chain of operators. -/
def ofChain (whole : Tree) : List Tree → Term
  | [] => .broken [] .emptyOperation whole.span
  | first :: rest => ofPairs whole (ofTree first) rest

/-- The term of the operators that follow a term. -/
def ofPairs (whole : Tree) (left : Term) : List Tree → Term
  | [] => left
  | [_] => .broken [left] .danglingOperator whole.span
  | sign :: operand :: rest =>
    ofPairs whole (binaryOf whole sign operand left (ofTree operand)) rest

end

/-! ## Values -/

/-- The value of an operator, if it has one. -/
def Operator.compute? (op : Operator) (a b : Int32) : Option Int32 :=
  match op with
  | .add => some (a + b)
  | .sub => some (a - b)
  | .mul => some (a * b)
  | .div => if b = 0 then none else some (a / b)
  | .mod => if b = 0 then none else some (a % b)

mutual

/-- The value of a term, given the values of variables. -/
def eval (env : String → Option Int32) : Term → Except EvalError Int32
  | .number value => .ok (Int32.ofInt value)
  | .variable name span =>
    match env name with
    | some value => .ok value
    | none => .error (.unboundVariable name span)
  | .negate operand => do return -(← eval env operand)
  | .binary op left right rightSpan => do
    let a ← eval env left
    let b ← eval env right
    match op.compute? a b with
    | some value => return value
    | none => throw (.divisionByZero rightSpan)
  | .broken before defect span => do
    evalAll env before
    throw (.malformed defect span)

/-- Finds the first error in a list of terms. -/
def evalAll (env : String → Option Int32) : List Term → Except EvalError Unit
  | [] => .ok ()
  | t :: ts => do
    let _ ← eval env t
    evalAll env ts

end

/-- The value of the tree of an expression. -/
def evaluate (env : String → Option Int32) (t : Tree) : Except EvalError Int32 :=
  eval env (ofTree t)

end Expr

end Polyglot
