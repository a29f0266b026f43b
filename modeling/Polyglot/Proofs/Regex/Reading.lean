import Mathlib.Data.List.Basic
import Polyglot.Regex.Reader

/-!
# Reading regular expressions step by step

Reading an expression goes from one state to the next (`Regex.Reading.LeadsTo`): from what is in
hand and what is left to read to what is in hand after some characters. Steps compose, so
what a written form puts in hand is put together from what its pieces do.

**The limit on brackets only refuses** (`Regex.readFrom_of_le`): reading with less room gives the
same expression or none.
-/

namespace Polyglot.Regex

/-- What is in hand while an expression is read, and what is left to read. -/
structure Reading where
  /-- The alternatives that are complete, the last of which comes first. -/
  branches : List (Nested Regex)
  /-- The parts of the current alternative, the last of which comes first. -/
  parts : List (Nested Regex)
  /-- What is left to read. -/
  text : List Char

namespace Reading

/-- What reading from a state on gives. -/
def read (s : Reading) (fuel room : Nat) : Except SyntaxError (Nested Regex × List Char) :=
  readFrom fuel room s.branches s.parts s.text

/-- Whether reading from one state on is reading from another on, which has no more left to read. -/
structure LeadsTo (room : Nat) (s s' : Reading) : Prop where
  /-- Nothing is put back. -/
  shorter : s'.text.length ≤ s.text.length
  /-- Reading goes on from the second state. -/
  goes_on : ∀ fuel, s.text.length < fuel →
    ∃ fuel', s'.text.length < fuel' ∧ s.read fuel room = s'.read fuel' room

namespace LeadsTo

variable {room : Nat} {s s' s'' : Reading} {branches parts : List (Nested Regex)}
  {c : Char} {text rest : List Char}

theorem refl (s : Reading) : s.LeadsTo room s :=
  ⟨Nat.le_refl _, fun fuel enough => ⟨fuel, enough, rfl⟩⟩

theorem trans (first : s.LeadsTo room s') (second : s'.LeadsTo room s'') : s.LeadsTo room s'' := by
  refine ⟨Nat.le_trans second.shorter first.shorter, fun fuel enough => ?_⟩
  obtain ⟨fuel', enough', eq⟩ := first.goes_on fuel enough
  obtain ⟨fuel'', enough'', eq'⟩ := second.goes_on fuel' enough'
  exact ⟨fuel'', enough'', eq.trans eq'⟩

/-- A step that reads a character and perhaps some after it. -/
theorem of_step (shorter : s'.text.length ≤ text.length)
    (step : ∀ fuel, readFrom (fuel + 1) room branches parts (c :: text) = s'.read fuel room) :
    LeadsTo room ⟨branches, parts, c :: text⟩ s' := by
  refine ⟨Nat.le_succ_of_le shorter, fun fuel enough => ?_⟩
  obtain ⟨fuel, rfl⟩ := Nat.exists_eq_succ_of_ne_zero (Nat.ne_zero_of_lt enough)
  exact ⟨fuel, Nat.lt_of_le_of_lt shorter (Nat.lt_of_succ_lt_succ enough), step fuel⟩

/-! ## Characters -/

/-- A character without a meaning of its own. -/
theorem plain (bare : c ∉ metaCharacters) : LeadsTo room ⟨branches, parts, c :: rest⟩
    ⟨branches, ⟨chars [c], 0⟩ :: parts, rest⟩ := by
  refine of_step (Nat.le_refl _) fun fuel => ?_
  unfold readFrom
  dsimp only
  split <;> first | rfl | exact absurd (by decide) bare

/-- An escaped character with a meaning of its own. -/
theorem escaped (special : c ∈ metaCharacters) : LeadsTo room ⟨branches, parts, '\\' :: c :: rest⟩
    ⟨branches, ⟨chars [c], 0⟩ :: parts, rest⟩ := by
  refine of_step (Nat.le_succ _) fun fuel => ?_
  have reads : ∀ c ∈ metaCharacters, readEscaped (c :: rest) = .ok (chars [c], rest) := by
    unfold metaCharacters
    repeat' first | exact List.forall_mem_nil _ | refine List.forall_mem_cons.2 ⟨rfl, ?_⟩
  unfold readFrom
  dsimp only
  rw [reads c special]
  rfl

/-- A text that is escaped. -/
theorem literal (cs : List Char) :
    LeadsTo room ⟨branches, parts, (escape (String.ofList cs)).toList ++ rest⟩
      ⟨branches, (cs.map fun c => ⟨chars [c], 0⟩).reverse ++ parts, rest⟩ := by
  unfold escape
  rw [String.toList_ofList, String.toList_ofList]
  induction cs generalizing parts with
  | nil => exact refl _
  | cons c cs ih =>
    rw [List.flatMap_cons, List.append_assoc, List.map_cons, List.reverse_cons, List.append_assoc]
    refine trans ?_ ih
    split
    · exact escaped ‹_›
    · exact plain ‹_›

/-- The point. -/
theorem point : LeadsTo room ⟨branches, parts, '.' :: rest⟩
    ⟨branches, ⟨one .anyInLine, 0⟩ :: parts, rest⟩ :=
  of_step (Nat.le_refl _) fun _ => rfl

theorem start : LeadsTo room ⟨branches, parts, '^' :: rest⟩
    ⟨branches, ⟨look .start, 0⟩ :: parts, rest⟩ :=
  of_step (Nat.le_refl _) fun _ => rfl

theorem stop : LeadsTo room ⟨branches, parts, '$' :: rest⟩
    ⟨branches, ⟨look .stop, 0⟩ :: parts, rest⟩ :=
  of_step (Nat.le_refl _) fun _ => rfl

/-! ## Signs -/

theorem bar : LeadsTo room ⟨branches, parts, '|' :: rest⟩ ⟨rowOf parts :: branches, [], rest⟩ :=
  of_step (Nat.le_refl _) fun _ => rfl

/-- A sign of repetition that no sign of laziness follows. -/
theorem sign {low : Nat} {high : Option Nat} {part : Nested Regex}
    (is : (c, low, high) ∈ [('*', 0, none), ('+', 1, none), ('?', 0, some 1)])
    (calm : rest.head? ≠ some '?') : LeadsTo room ⟨branches, part :: parts, c :: rest⟩
      ⟨branches, part.under (repetition low high true) :: parts, rest⟩ := by
  have greedy : readLaziness rest = (true, rest) := by
    unfold readLaziness
    split
    · exact absurd rfl calm
    · rfl
  refine of_step (Nat.le_refl _) fun fuel => ?_
  simp only [List.mem_cons, Prod.mk.injEq, List.not_mem_nil, or_false] at is
  obtain ⟨rfl, rfl, rfl⟩ | ⟨rfl, rfl, rfl⟩ | ⟨rfl, rfl, rfl⟩ := is <;>
    (unfold readFrom; dsimp only; rw [greedy]; rfl)

/-- A group, if reading what is in it gets to its bracket. -/
theorem group {branches' parts' : List (Nested Regex)}
    (inner : LeadsTo room ⟨[], [], text⟩ ⟨branches', parts', ')' :: rest⟩) :
    LeadsTo (room + 1) ⟨branches, parts, '(' :: '?' :: ':' :: text⟩
      ⟨branches, (Nested.join alternation (rowOf parts' :: branches')).under id :: parts, rest⟩ := by
  have shorter : rest.length + 1 ≤ text.length := inner.shorter
  refine ⟨?_, fun fuel enough => ?_⟩
  · simp only [List.length_cons]
    omega
  · simp only [List.length_cons] at enough
    obtain ⟨fuel, rfl⟩ := Nat.exists_eq_succ_of_ne_zero (Nat.ne_zero_of_lt enough)
    obtain ⟨fuel', enough', eq⟩ := inner.goes_on fuel (by simp only; omega)
    obtain ⟨fuel', rfl⟩ := Nat.exists_eq_succ_of_ne_zero (Nat.ne_zero_of_lt enough')
    have inside : readFrom fuel room [] [] text
        = .ok (Nested.join alternation (rowOf parts' :: branches'), ')' :: rest) := eq
    refine ⟨fuel, by simp only; omega, ?_⟩
    show (readFrom fuel room [] [] text >>= _) = _
    rw [inside]
    rfl

end LeadsTo

end Reading

/-! ## The limit on brackets -/

/-- Whether a result is another, or a refusal of what is nested too deeply. -/
def OrTooDeep {α : Type} (x y : Except SyntaxError α) : Prop := x = .error .tooDeep ∨ x = y

namespace OrTooDeep

variable {α β : Type} {x y : Except SyntaxError α}

theorem rfl : OrTooDeep x x := .inr (.refl x)

theorem bind {f g : α → Except SyntaxError β} (first : OrTooDeep x y)
    (second : ∀ a, OrTooDeep (f a) (g a)) : OrTooDeep (x >>= f) (y >>= g) := by
  obtain refused | same := first
  · exact .inl (by rw [refused]; exact .refl _)
  · rw [same]
    cases y with
    | error e => exact .rfl
    | ok a => exact second a

end OrTooDeep

/-- **With less room the same is read**, or the text is found to be nested too deeply. -/
theorem readFrom_of_le {room room' : Nat} (le : room ≤ room') (fuel : Nat)
    (branches parts : List (Nested Regex)) (text : List Char) :
    OrTooDeep (readFrom fuel room branches parts text) (readFrom fuel room' branches parts text) := by
  induction fuel generalizing room room' branches parts text with
  | zero => exact .rfl
  | succ fuel ih =>
    cases text with
    | nil => exact .rfl
    | cons c rest =>
      unfold readFrom
      dsimp only
      split
      -- an opening bracket is the only character that asks for room
      case h_3 =>
        split
        case h_2 => exact .rfl
        all_goals
          cases room with
          | zero => exact .inl (.refl _)
          | succ room =>
            obtain ⟨room', rfl⟩ := Nat.exists_eq_add_of_le' (Nat.le_of_add_left_le le)
            refine (ih (Nat.le_of_succ_le_succ le) ..).bind fun _ => ?_
            split
            · exact .rfl
            · exact ih le ..
      -- a count, a class and an escape are read before reading goes on
      case h_7 =>
        split
        · exact .rfl
        · refine OrTooDeep.rfl.bind fun _ => ?_
          split
          · exact .rfl
          · exact ih le ..
      case h_8 => exact OrTooDeep.rfl.bind fun _ => ih le ..
      case h_9 => exact OrTooDeep.rfl.bind fun _ => ih le ..
      case h_1 => exact .rfl
      all_goals try exact ih le ..
      -- what is left are the signs of repetition
      all_goals
        split
        · exact .rfl
        · exact ih le ..

/-! ## Whole expressions -/

/-- What is made of the parts of a whole expression, if it keeps the limits. -/
def finish (parts : List (Nested Regex)) : Except SyntaxError Regex :=
  if depthLimit < (rowOf parts).depth then .error .tooDeep
  else if (rowOf parts).value.isTooHeavy then .error .tooHeavy
  else .ok (rowOf parts).value

section

variable {parts : List (Nested Regex)} {text : List Char} {room : Nat}

theorem readFrom_of_leadsTo (reads : Reading.LeadsTo room ⟨[], [], text⟩ ⟨[], parts, []⟩) :
    readFrom (text.length + 1) room [] [] text = .ok (rowOf parts, []) := by
  obtain ⟨fuel, enough, eq⟩ := reads.goes_on (text.length + 1) (Nat.lt_succ_self _)
  obtain ⟨fuel, rfl⟩ := Nat.exists_eq_succ_of_ne_zero (Nat.ne_zero_of_lt enough)
  exact eq

/-- A text that is read to its end within the limit on brackets. -/
theorem parse_eq_finish (reads : Reading.LeadsTo depthLimit ⟨[], [], text⟩ ⟨[], parts, []⟩) :
    parse text = finish parts := by
  rw [parse, readFrom_of_leadsTo reads]
  rfl

/-- A text that would be read to its end with more room. -/
theorem parse_orTooDeep (le : depthLimit ≤ room)
    (reads : Reading.LeadsTo room ⟨[], [], text⟩ ⟨[], parts, []⟩) :
    OrTooDeep (parse text) (finish parts) := by
  have read := readFrom_of_le le (text.length + 1) [] [] text
  rw [readFrom_of_leadsTo reads] at read
  exact read.bind fun _ => .rfl

end

end Polyglot.Regex
