/-!
# Pipelines

A pipeline takes a value through stages, each of which may fail. What a stage
gives can be kept under a name, and later stages can look it up; the last value
kept under a name is the one that counts. A stage that fails has its name put in
front of its reason, and nothing comes after it.
-/

namespace Polyglot

/-- Values that were kept under names. -/
structure Stash (α : Type) where
  /-- The values with their names, the last one first. -/
  entries : List (String × α) := []
  deriving Repr

namespace Stash

variable {α : Type}

/-- The value kept under a name. -/
def find? (s : Stash α) (name : String) : Option α := s.entries.lookup name

/-- Whether there is a value under a name. -/
def contains (s : Stash α) (name : String) : Bool := (s.find? name).isSome

/-- The stash with one more value. -/
def insert (s : Stash α) (name : String) (value : α) : Stash α :=
  ⟨(name, value) :: s.entries⟩

/-- What there is to say about a name under which there is no value. -/
def missing (name : String) : String := s!"No value named {name} was kept"

/-- The value kept under a name, or what there is to say if there is none. -/
def get (s : Stash α) (name : String) : Except String α :=
  match s.find? name with
  | some value => .ok value
  | none => .error (missing name)

@[simp] theorem find?_insert_self (s : Stash α) (name : String) (value : α) :
    (s.insert name value).find? name = some value := by
  simp [find?, insert]

theorem find?_insert_of_ne (s : Stash α) {name other : String} (value : α) (h : other ≠ name) :
    (s.insert name value).find? other = s.find? other := by
  simp [find?, insert, List.lookup_cons, beq_eq_false_iff_ne.2 h]

end Stash

/-- Why a pipeline stops. -/
inductive PipelineError (ε : Type) where
  /-- A stage failed. -/
  | stage (name : String) (cause : ε)
  /-- A stage gave the wrong number of values to keep. -/
  | miscounted (stage : String) (found expected : Nat)
  /-- Something that has no name failed. -/
  | aside (cause : ε)
  deriving DecidableEq, Repr

/-- The error and what caused it, as separate messages, given those of causes. -/
def PipelineError.chain {ε : Type} (causes : ε → List String) : PipelineError ε → List String
  | stage name cause => s!"Stage {name} failed" :: causes cause
  | miscounted name found expected =>
    [s!"Stage {name} produced {found} values to keep instead of {expected}"]
  | aside cause => causes cause

/-- A value on its way, and what was kept. -/
structure Pipeline (α : Type) where
  /-- The value. -/
  value : α
  /-- What was kept. -/
  stash : Stash α := {}
  deriving Repr

namespace Pipeline

variable {α ε : Type}

/-- Takes the value through a stage and keeps what comes out. -/
def andThen (p : Pipeline α) (name : String) (f : α → Stash α → Except ε α) :
    Except (PipelineError ε) (Pipeline α) :=
  match f p.value p.stash with
  | .ok value => .ok ⟨value, p.stash.insert name value⟩
  | .error e => .error (.stage name e)

/-- Keeps what comes out of a stage and leaves the value as it is. -/
def keep (p : Pipeline α) (name : String) (f : α → Stash α → Except ε α) :
    Except (PipelineError ε) (Pipeline α) :=
  match f p.value p.stash with
  | .ok kept => .ok ⟨p.value, p.stash.insert name kept⟩
  | .error e => .error (.stage name e)

/-- Takes the value through a stage that also gives a value to keep for every
name. -/
def andKeep (p : Pipeline α) (names : List String)
    (f : α → Stash α → Except ε (α × List α)) : Except (PipelineError ε) (Pipeline α) :=
  let stage := ",".intercalate names
  match f p.value p.stash with
  | .ok (value, kept) =>
    if kept.length ≠ names.length then .error (.miscounted stage kept.length names.length)
    else .ok ⟨value, (names.zip kept).foldl (fun s (name, v) => s.insert name v) p.stash⟩
  | .error e => .error (.stage stage e)

/-- Checks the value and leaves it as it is. -/
def first (p : Pipeline α) (f : α → Except ε Unit) : Except (PipelineError ε) (Pipeline α) :=
  match f p.value with
  | .ok () => .ok p
  | .error e => .error (.aside e)

end Pipeline

end Polyglot
