import Polyglot.Text.Numeral

/-!
# Reading arguments

What the arguments of a command mean is said by data, a `Form`: its options, and
whether it has an operand. Reading goes from left to right with a state, and the
first argument that makes no sense is the one that is complained about.

An option with a long name is `--name`, and its value is the next argument or
follows an equals sign in the same one. An option of one letter is `-n`; several
of them can share a dash, and the rest of the argument after one that takes a
value is its value, with or without an equals sign. After `--` there are only
operands.

An argument that could start an option is never taken for the value of the option
before it, so a negative number cannot be a value unless it is attached.

**A value is looked at late.** A value that comes as an argument of its own is
*pending* until the next option or operand, or the end, settles it. Only then is
it checked; an argument that makes no sense on its own comes first even if it
stands behind a bad value.
-/

namespace Polyglot.CommandLine

/-- Why arguments are refused, or answered right away. -/
inductive UsageError where
  /-- Help was asked for. -/
  | helpRequest
  /-- The version was asked for. -/
  | versionRequest
  /-- There are no arguments at all. -/
  | nothingAsked
  /-- There is no command. -/
  | missingCommand
  /-- There is no such command. -/
  | unknownCommand (name : String)
  /-- An argument has no place. -/
  | unknownArgument (argument : String)
  /-- An option without a value was given one. -/
  | unneededValue (option : String)
  /-- An option with a value was given none, or the value is empty. -/
  | emptyValue (option : String)
  /-- The value of an option is no number. -/
  | invalidNumber (option value : String)
  /-- An option was given twice. -/
  | repeatedOption (option : String)
  /-- Something that is needed is not there. -/
  | missingArgument (name : String)
  deriving DecidableEq, Repr

/-- The exit code of a program that stops for the error. -/
def UsageError.exitCode : UsageError → Int32
  | helpRequest => 0
  | versionRequest => 0
  | _ => 2

/-- What a value may be. -/
inductive ValueRule where
  /-- Any text. -/
  | text
  /-- A text that is not empty. -/
  | path
  /-- A number of at most 64 bits. -/
  | number
  deriving DecidableEq, Repr

/-- What an option does. -/
inductive Action where
  /-- It asks for help. -/
  | help
  /-- It asks for the version. -/
  | version
  /-- It counts. -/
  | count
  /-- It takes a value and is given at most once. -/
  | set (rule : ValueRule)
  /-- It takes a value, every time it is given. -/
  | append (rule : ValueRule)
  deriving DecidableEq, Repr

/-- The rule for the value, if the option takes one. -/
def Action.rule? : Action → Option ValueRule
  | set rule => some rule
  | append rule => some rule
  | _ => none

/-- An option, or the operand. -/
structure Parameter where
  /-- The long name. -/
  name : String
  /-- The letter. -/
  letter : Option Char := none
  /-- What it does. -/
  action : Action
  deriving DecidableEq, Repr

/-- What the arguments of a command may be. -/
structure Form where
  /-- The options. -/
  options : List Parameter
  /-- The operand, if there is one. -/
  operand : Option Parameter := none
  /-- The names of the parameters that must be given. -/
  required : List String := []

/-- The arguments read so far. -/
structure Reading where
  /-- How often something was counted. -/
  count : Nat := 0
  /-- The values, with the names of their parameters, in order. -/
  values : List (String × String) := []
  /-- A parameter whose value was not checked yet, and its value if it has come. -/
  pending : Option (Parameter × Option String) := none
  /-- Whether the operand has come. -/
  operandTaken : Bool := false
  /-- Whether only operands come from here on. -/
  operandsOnly : Bool := false
  deriving Repr

namespace Reading

/-- Whether the pending parameter still waits for its value. -/
def waits (r : Reading) : Bool :=
  match r.pending with
  | some (_, none) => true
  | _ => false

/-- The values of a parameter. -/
def all (r : Reading) (name : String) : List String :=
  (r.values.filter (·.1 == name)).map (·.2)

/-- The value of a parameter. -/
def get? (r : Reading) (name : String) : Option String := r.values.lookup name

/-- The value of a parameter, as a number. -/
def number? (r : Reading) (name : String) : Option Nat :=
  (r.get? name).bind (Text.unsigned? 64)

/-- The reading with the value of a parameter, if that is allowed. -/
def take (r : Reading) (p : Parameter) (value : Option String) : Except UsageError Reading := do
  let some value := value | throw (.emptyValue p.name)
  match p.action with
  | .set _ => if (r.get? p.name).isSome then throw (.repeatedOption p.name)
  | _ => pure ()
  match p.action.rule? with
  | some .path => if value.isEmpty then throw (.emptyValue p.name)
  | some .number =>
    if (Text.unsigned? 64 value).isNone then throw (.invalidNumber p.name value)
  | _ => pure ()
  return { r with values := r.values ++ [(p.name, value)] }

/-- The reading with nothing pending. -/
def settle (r : Reading) : Except UsageError Reading :=
  match r.pending with
  | none => .ok r
  | some (p, value) => { r with pending := none }.take p value

/-- The reading after an option without a value. -/
def flag (r : Reading) (p : Parameter) : Except UsageError Reading := do
  let r ← r.settle
  match p.action with
  | .help => throw .helpRequest
  | .version => throw .versionRequest
  | _ => return { r with count := min (r.count + 1) 255 }

/-- The reading after an option with a value, which may not have come yet. -/
def option (r : Reading) (p : Parameter) (attached : Option String) :
    Except UsageError Reading := do
  let r ← r.settle
  match attached with
  | some value => r.take p (some value)
  | none => return { r with pending := some (p, none) }

/-- The reading after an option with a long name. -/
def long (f : Form) (r : Reading) (name : String) (attached : Option String) :
    Except UsageError Reading :=
  match f.options.find? (·.name == name), attached with
  | none, _ => .error (.unknownArgument ("--" ++ name))
  | some p, attached =>
    if p.action.rule?.isSome then r.option p attached
    else if attached.isSome then .error (.unneededValue name)
    else r.flag p

/-- The value attached to a letter, given what follows the letter. -/
def attachedTo : List Char → Option String
  | [] => none
  | '=' :: rest => some (String.ofList rest)
  | rest => some (String.ofList rest)

/-- The reading after options of one letter that share a dash. -/
def letters (f : Form) (r : Reading) : List Char → Except UsageError Reading
  | [] => .ok r
  | c :: rest =>
    match f.options.find? (·.letter == some c) with
    | none => .error (.unknownArgument (String.ofList ['-', c]))
    | some p =>
      if p.action.rule?.isSome then r.option p (attachedTo rest)
      else do letters f (← r.flag p) rest

/-- The reading after an argument that is no option. -/
def operand (f : Form) (r : Reading) (argument : String) : Except UsageError Reading :=
  match f.operand with
  | some p =>
    if r.operandTaken then .error (.unknownArgument argument)
    else do
      let r ← r.settle
      return { r with pending := some (p, some argument), operandTaken := true }
  | none => .error (.unknownArgument argument)

/-- The two sides of the first equals sign. -/
def splitAtEquals (cs : List Char) : String × Option String :=
  let name := cs.takeWhile (· != '=')
  (String.ofList name,
    match cs.drop name.length with
    | [] => none
    | _ :: value => some (String.ofList value))

/-- The reading after one more argument. -/
def next (f : Form) (r : Reading) (argument : String) : Except UsageError Reading :=
  if r.operandsOnly then r.operand f argument
  else
    match argument.toList with
    | ['-', '-'] => .ok { r with operandsOnly := true }
    | '-' :: '-' :: rest =>
      let (name, attached) := splitAtEquals rest
      r.long f name attached
    | '-' :: c :: rest => r.letters f (c :: rest)
    | _ =>
      match r.pending with
      | some (p, none) => .ok { r with pending := some (p, some argument) }
      | _ => r.operand f argument

/-- The reading of all arguments. -/
def finish (f : Form) (r : Reading) : Except UsageError Reading := do
  let r ← r.settle
  match f.required.find? fun name => (r.get? name).isNone with
  | some name => throw (.missingArgument name)
  | none => return r

/-- Reads the arguments of a command. -/
def ofArguments (f : Form) (arguments : List String) : Except UsageError Reading := do
  (← arguments.foldlM (next f) {}).finish f

end Reading

end Polyglot.CommandLine
