import Polyglot.Tree.Basic

/-!
# Programs of B

The typed form of programs: functions with a statement each, statements, and
expressions. It is read from a shaken tree, and reading never fails. What a tree
should not have becomes a *broken* statement or expression, which remembers what
stands before the defect; so the compiler finds errors in the order in which they
stand in the source, and a tree that was put together by hand, with any defects,
still has a first one.

A tree is read from below. What can be said about a tree without knowing what
stands above it is a `Reading`, and it is made from the readings of its parts. For
an address that is more than an expression: if it ends with a literal being added
or subtracted, the literal is kept apart as an offset.

Two things are taken from the whole tree and not from the typed form: the text
literals, for each of them has a place in the data of the program even if no
statement is made of it, and the names that are assigned, for each of them has a
slot.
-/

namespace Polyglot.B

open Polyglot.Source

/-! ## The typed form -/

/-- The operators on two values. -/
inductive Operator where
  | add | sub | mul | div | mod | or | and | eq | ne | gt | ge | lt | le
  deriving DecidableEq, Repr

/-- The signs of the operators. -/
def Operator.signs : List (String × Operator) :=
  [("+", .add), ("-", .sub), ("*", .mul), ("/", .div), ("%", .mod), ("|", .or), ("&", .and),
   ("==", .eq), ("!=", .ne), (">", .gt), (">=", .ge), ("<", .lt), ("<=", .le)]

/-- The operator with a sign. -/
def Operator.ofSign? (sign : String) : Option Operator :=
  signs.lookup sign

/-- The word that says whether something holds. -/
def truth (holds : Bool) : Int32 := if holds then 1 else 0

/-- The value of an operator, if it has one. Arithmetic is modulo `2 ^ 32`,
division goes towards zero, and what divides by zero has no value. -/
def Operator.compute? (op : Operator) (a b : Int32) : Option Int32 :=
  match op with
  | .add => some (a + b)
  | .sub => some (a - b)
  | .mul => some (a * b)
  | .div => if b = 0 then none else some (a / b)
  | .mod => if b = 0 then none else some (a % b)
  | .or => some (a ||| b)
  | .and => some (a &&& b)
  | .eq => some (truth (a == b))
  | .ne => some (truth (a != b))
  | .gt => some (truth (a > b))
  | .ge => some (truth (a ≥ b))
  | .lt => some (truth (a < b))
  | .le => some (truth (a ≤ b))

/-- Whether an operator has no value if the right operand is zero. -/
def Operator.divides (op : Operator) : Bool := op == .div || op == .mod

/-- What is wrong with a tree that is no program. -/
inductive Defect where
  /-- A chain of operators has nothing in it. -/
  | emptyOperation
  /-- The last operator of a chain has nothing after it. -/
  | danglingOperator
  /-- A sign between two expressions is no operator. -/
  | unknownOperator
  /-- A sign before an expression is no operator. -/
  | unknownUnaryOperator
  /-- The parts of a sign and an expression, or of brackets, are not what they
  should be. -/
  | invalidUnary
  /-- A number has no value. -/
  | invalidInteger
  /-- A text has no value. -/
  | invalidText
  /-- A tree stands for no expression. -/
  | unknownExpression
  /-- A tree stands for no statement. -/
  | unknownStatement
  /-- A part with a label is not there. -/
  | missing (label : String)
  /-- A statement that should be a call has none in it. -/
  | noCall
  /-- A function has no body. -/
  | noBody (name : String)
  deriving DecidableEq, Repr

/-- The wording of a defect. -/
def Defect.message : Defect → String
  | emptyOperation => "empty operation"
  | danglingOperator => "dangling operator"
  | unknownOperator => "unknown operator"
  | unknownUnaryOperator => "unknown unary operator"
  | invalidUnary => "invalid unary expression"
  | invalidInteger => "invalid integer"
  | invalidText => "invalid string literal"
  | unknownExpression => "unknown expression"
  | unknownStatement => "unknown statement"
  | missing label => s!"missing {label}"
  | noCall => "call statement without a call"
  | noBody name => s!"function {name} has no body"

/-- An expression. -/
inductive Expression where
  /-- A literal number. -/
  | integer (value : Int) (span : Span)
  /-- A literal text, whose value is an address. -/
  | text (text : String)
  /-- A variable. -/
  | variable (name : String) (span : Span)
  /-- The negative of a value. -/
  | negate (operand : Expression)
  /-- Whether a value is zero. -/
  | isZero (operand : Expression)
  /-- An operator between two values; the span is that of its sign. -/
  | binary (op : Operator) (left right : Expression) (signSpan : Span)
  /-- A call of a function. -/
  | call (callee : String) (arguments : List Expression) (span : Span)
  /-- The word in memory at so many bytes from an address; the span is that of
  the address and the offset. -/
  | load (base : Expression) (offset : Int) (addressSpan : Span)
  /-- No expression, for a defect that comes after some others. -/
  | broken (before : List Expression) (defect : Defect) (span : Span)
  deriving Repr, Inhabited

/-- A statement. -/
inductive Statement where
  /-- Statements one after the other. -/
  | block (body : List Statement)
  /-- A statement that is repeated as long as a value is not zero. -/
  | whileLoop (condition : Expression) (body : Statement)
  /-- A statement that is left out if a value is zero. -/
  | ifThen (condition : Expression) (positive : Statement)
  /-- Two statements, the second one for a value that is zero. -/
  | ifElse (condition : Expression) (positive negative : Statement)
  /-- The end of the function, with a value or with zero. -/
  | ret (value : Option Expression)
  /-- A value for a variable. -/
  | assign (target : String) (value : Expression)
  /-- A word to memory at so many bytes from an address. -/
  | store (base : Expression) (offset : Int) (addressSpan : Span) (value : Expression)
  /-- A call whose value is not used. -/
  | call (call : Expression)
  /-- Nothing. -/
  | skip
  /-- No statement, for a defect that comes after some expressions. -/
  | broken (before : List Expression) (defect : Defect) (span : Span)
  deriving Repr, Inhabited

/-- A function. -/
structure Function where
  /-- The name. -/
  name : String
  /-- The names of the parameters. -/
  parameters : List String
  /-- The names that are assigned, as often as they are, in the order of the
  source. -/
  assigned : List String
  /-- What the function does, unless the tree has nothing there. -/
  body : Option Statement
  /-- The stretch of source the function comes from. -/
  span : Span
  deriving Repr

/-- A program. -/
structure Program where
  /-- The text literals in the order of the source, with the place in the stead of
  one that has no value. -/
  texts : List (Except Span String)
  /-- The functions. -/
  functions : List Function

/-! ## Reading expressions -/

/-- Whether a tree is a token with exactly this text. -/
def isSign (t : Tree) (text : String) : Bool :=
  t.token?.any (·.lexeme == text)

/-- What can be said about a tree without knowing what stands above it. -/
structure Reading where
  /-- The tree as an expression. -/
  expression : Expression
  /-- The tree as a base and an offset, if it ends with a literal being added or
  subtracted. -/
  split : Option (Expression × Int)
  /-- The value, if the tree is nothing but a literal number. -/
  literal : Option Int
  /-- The expressions of the trees below that are no leaves. -/
  items : List Expression

/-- A tree and its reading. -/
abbrev Part := Tree × Reading

namespace Reading

/-- An operator between two expressions, if the sign is one. -/
def binaryOf (sign : Tree) (left right : Expression) : Expression :=
  match Operator.ofSign? ((sign.token?.map (·.lexeme)).getD "") with
  | some op => .binary op left right sign.span
  | none => .broken [left, right] .unknownOperator sign.span

/-- The expression of the operators that follow an expression. -/
def chainFrom (whole : Tree) (left : Expression) : List Part → Expression
  | [] => left
  | [_] => .broken [left] .danglingOperator whole.span
  | sign :: operand :: rest => chainFrom whole (binaryOf sign.1 left operand.2.expression) rest

/-- The expression of a chain of operators. -/
def chain (whole : Tree) : List Part → Expression
  | [] => .broken [] .emptyOperation whole.span
  | first :: rest => chainFrom whole first.2.expression rest

/-- The expression of a sign and an expression, or of brackets. -/
def unary (whole : Tree) : List Part → Expression
  | [single] => single.2.expression
  | [sign, operand] =>
    if isSign sign.1 "-" then .negate operand.2.expression
    else if isSign sign.1 "!" then .isZero operand.2.expression
    else if sign.1.isLeaf then
      .broken [operand.2.expression] .unknownUnaryOperator sign.1.span
    else .broken [] .invalidUnary whole.span
  | [left, inner, right] =>
    if isSign left.1 "(" && isSign right.1 ")" then inner.2.expression
    else .broken [] .invalidUnary whole.span
  | _ => .broken [] .invalidUnary whole.span

/-- The expression of a call. -/
def call (whole : Tree) (parts : List Part) : Expression :=
  match whole.labeled? "name" with
  | none => .broken [] (.missing "name") whole.span
  | some callee =>
    let arguments := (parts.find? fun p => p.1.name == "arguments").map (·.2.items)
    .call callee.text (arguments.getD []) whole.span

/-- The base and the offset of an address. -/
def address (r : Reading) : Expression × Int :=
  r.split.getD (r.expression, 0)

/-- The expression of a word from memory. -/
def load (whole : Tree) (parts : List Part) : Expression :=
  match parts.find? fun p => p.1.label == some "address" with
  | none => .broken [] (.missing "address") whole.span
  | some (t, r) => .load r.address.1 r.address.2 t.span

/-- The expression of a tree with these parts. -/
def expressionOf (t : Tree) (parts : List Part) : Expression :=
  match t.name with
  | "expression" => chain t parts
  | "conjunction" => chain t parts
  | "equality" => chain t parts
  | "comparison" => chain t parts
  | "sum" => chain t parts
  | "product" => chain t parts
  | "unary" => unary t parts
  | "integer" =>
    match t.token?.bind Token.int? with
    | some value => .integer value t.span
    | none => .broken [] .invalidInteger t.span
  | "string" => .text ((t.token?.bind Token.str?).getD "")
  | "variable" => .variable t.text t.span
  | "call" => call t parts
  | "load" => load t parts
  | _ => .broken [] .unknownExpression t.span

/-- The base and the offset of a sum that ends with a literal. -/
def splitSum (whole : Tree) (parts : List Part) : Option (Expression × Int) := do
  let before := parts.take (parts.length - 2)
  match before, parts.drop (parts.length - 2) with
  | _ :: _, [sign, last] =>
    let value ← last.2.literal
    let base := chain (whole.withChildren (before.map (·.1))) before
    if isSign sign.1 "+" then some (base, value)
    else if isSign sign.1 "-" then some (base, -value)
    else none
  | _, _ => none

/-- The base and the offset of a tree with these parts, which may be a sum or just
hold one. -/
def splitOf (t : Tree) (parts : List Part) : Option (Expression × Int) :=
  if t.name == "sum" then splitSum t parts
  else match parts with
    | [single] => single.2.split
    | _ => none

/-- The literal of a tree with these parts, which may be one or just hold one. -/
def literalOf (t : Tree) (parts : List Part) : Option Int :=
  match parts with
  | [] => if t.name == "integer" then t.token?.bind Token.int? else none
  | [single] => single.2.literal
  | _ => none

/-- The reading of a tree with these parts. -/
def ofParts (t : Tree) (parts : List Part) : Reading where
  expression := expressionOf t parts
  split := splitOf t parts
  literal := literalOf t parts
  items := (parts.filter fun p => !p.1.isLeaf).map (·.2.expression)

mutual

/-- The reading of a tree. -/
def ofTree : Tree → Reading
  | .leaf name label terminal token => ofParts (.leaf name label terminal token) []
  | .node name label choice children =>
    ofParts (.node name label choice children) (partsOf children)

/-- Trees with their readings. -/
def partsOf : List Tree → List Part
  | [] => []
  | t :: ts => (t, ofTree t) :: partsOf ts

end

end Reading

/-! ## Reading statements -/

namespace Statement

/-- The statement of the part with a label. -/
def labeled? (parts : List (Tree × Statement)) (label : String) : Option Statement :=
  (parts.find? fun p => p.1.label == some label).map (·.2)

/-- The statement that has a condition, and then another part. -/
def conditional (whole : Tree) (label : String) (parts : List (Tree × Statement))
    (make : Expression → Statement → Statement) : Statement :=
  match whole.labeled? "condition" with
  | none => .broken [] (.missing "condition") whole.span
  | some c =>
    let condition := (Reading.ofTree c).expression
    match labeled? parts label with
    | some s => make condition s
    | none => .broken [condition] (.missing label) whole.span

/-- The statement of an assignment. -/
def assignment (whole : Tree) : Statement :=
  match whole.labeled? "target", whole.labeled? "value" with
  | none, _ => .broken [] (.missing "target") whole.span
  | some _, none => .broken [] (.missing "value") whole.span
  | some target, some value => .assign target.text (Reading.ofTree value).expression

/-- The statement of a word that goes to memory. -/
def storing (whole : Tree) : Statement :=
  match whole.labeled? "address" with
  | none => .broken [] (.missing "address") whole.span
  | some a =>
    let (base, offset) := (Reading.ofTree a).address
    match whole.labeled? "value" with
    | none => .broken [.load base offset a.span] (.missing "value") whole.span
    | some value => .store base offset a.span (Reading.ofTree value).expression

/-- The statement of a tree with these parts. -/
def ofParts (t : Tree) (parts : List (Tree × Statement)) : Statement :=
  match t.name with
  | "block" => .block ((parts.filter fun p => !p.1.isLeaf).map (·.2))
  | "while" => conditional t "body" parts .whileLoop
  | "if" =>
    conditional t "then" parts fun condition positive =>
      match labeled? parts "otherwise" with
      | some negative => .ifElse condition positive negative
      | none => .ifThen condition positive
  | "return" => .ret ((t.labeled? "value").map fun v => (Reading.ofTree v).expression)
  | "assignment" => assignment t
  | "store" => storing t
  | "call_statement" =>
    match t.children.find? fun c => c.name == "call" with
    | some c => .call (Reading.ofTree c).expression
    | none => .broken [] .noCall t.span
  | "empty" => .skip
  | _ => .broken [] .unknownStatement t.span

mutual

/-- The statement of a tree. -/
def ofTree : Tree → Statement
  | .leaf name label terminal token => ofParts (.leaf name label terminal token) []
  | .node name label choice children =>
    ofParts (.node name label choice children) (partsOf children)

/-- Trees with their statements. -/
def partsOf : List Tree → List (Tree × Statement)
  | [] => []
  | t :: ts => (t, ofTree t) :: partsOf ts

end

end Statement

/-! ## Reading programs -/

mutual

/-- The names that are assigned in a tree, from left to right. -/
def assignedIn : Tree → List String
  | .leaf .. => []
  | .node name label choice children =>
    if name == "assignment" then
      (((Tree.node name label choice children).labeled? "target").map Tree.text).toList
    else assignedInList children

/-- The names that are assigned in a list of trees, from left to right. -/
def assignedInList : List Tree → List String
  | [] => []
  | t :: ts => assignedIn t ++ assignedInList ts

end

mutual

/-- The text literals in a tree, from left to right. -/
def textsIn : Tree → List (Except Span String)
  | .leaf name label terminal token =>
    if name == "string" then
      match token.str? with
      | some text => [.ok text]
      | none => [.error (Tree.leaf name label terminal token).span]
    else []
  | .node name label choice children =>
    if name == "string" then [.error (Tree.node name label choice children).span]
    else textsInList children

/-- The text literals in a list of trees, from left to right. -/
def textsInList : List Tree → List (Except Span String)
  | [] => []
  | t :: ts => textsIn t ++ textsInList ts

end

/-- The function of a tree. -/
def Function.ofTree (t : Tree) : Function where
  name := ((t.labeled? "name").map Tree.text).getD ""
  parameters :=
    match t.children.find? fun c => c.name == "parameters" with
    | some ps => (ps.children.filter fun c => c.name == "identifier").map Tree.text
    | none => []
  assigned := ((t.labeled? "body").map assignedIn).getD []
  body := (t.labeled? "body").map Statement.ofTree
  span := t.span

/-- The program of a tree. -/
def Program.ofTree (t : Tree) : Program where
  texts := textsIn t
  functions := (t.children.filter fun c => c.name == "function").map Function.ofTree

end Polyglot.B
