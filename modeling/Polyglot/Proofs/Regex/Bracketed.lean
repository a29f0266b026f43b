import Polyglot.Proofs.Regex.Places
import Polyglot.Proofs.Regex.Reading
import Polyglot.Proofs.Success

/-!
# Expressions in brackets

An expression that can be read by itself can be read in brackets too, and is the same expression
there. So a bracket that is written at the end of a text closes nothing but what was opened before
the text: what is read of the text is what is read of it without the bracket, and the bracket is
left after what is left without it (`Regex.readFrom_append`).

This is said of one function that reads after the other, from escapes and counts to classes and
to expressions. The only one that it does not hold of is the reading of an item of a class, if a
hyphen is all that is left after it: the bracket would be the end of a range. But such a class
is not closed, and is none (`Regex.readClassFrom_hyphen`).

A capturing group knows its place by what is left of the text after it, which is a character
longer with the bracket. So all groups are moved one place on.
-/

namespace Polyglot.Regex

/-! ## Escapes -/

/-- What is taken up to a character that is there does not depend on the text after it. -/
theorem takeWhile_append_of_dropWhile {p : Char → Bool} {text rest : List Char} {c : Char}
    (stop : text.dropWhile p = c :: rest) (more : List Char) :
    (text ++ more).takeWhile p = text.takeWhile p
      ∧ (text ++ more).dropWhile p = c :: (rest ++ more) := by
  induction text with
  | nil => cases stop
  | cons d text ih =>
    rw [List.cons_append, List.takeWhile_cons, List.takeWhile_cons, List.dropWhile_cons]
    rw [List.dropWhile_cons] at stop
    split
    · rename_i goes
      rw [if_pos goes] at stop
      obtain ⟨same, same'⟩ := ih stop
      exact ⟨congrArg _ same, same'⟩
    · rename_i stops
      rw [if_neg stops] at stop
      obtain ⟨rfl, rfl⟩ := List.cons.inj stop
      exact ⟨rfl, rfl⟩

variable {text rest : List Char} {c : Char}

/-- What a text with a bracket at the end starts with is not the bracket. -/
theorem starts_of_append_closing (other : c ≠ ')') (eq : text ++ [')'] = c :: rest) :
    ∃ more, text = c :: more := by
  cases text with
  | nil => exact (other (List.cons.inj eq).1.symm).elim
  | cons d text =>
    obtain ⟨rfl, -⟩ := List.cons.inj eq
    exact ⟨text, rfl⟩

theorem readCodePoint_append {count : Nat} (read : readCodePoint count text = .ok (c, rest)) :
    readCodePoint count (text ++ [')']) = .ok (c, rest ++ [')']) := by
  unfold readCodePoint at read
  split at read
  · rename_i digits
    split at read
    · rename_i found stop
      obtain ⟨rfl, rfl⟩ := Prod.mk.inj (Except.ok.inj read)
      obtain ⟨same, same'⟩ := takeWhile_append_of_dropWhile stop [')']
      rw [List.cons_append, readCodePoint, same, same', found]
    · cases read
  · rename_i other
    split at read
    · rename_i found
      split at read
      · cases read
      · rename_i long
        obtain ⟨rfl, rfl⟩ := Prod.mk.inj (Except.ok.inj read)
        have le := Nat.le_of_not_lt long
        have other' : ∀ t, text ++ [')'] = '\x7b' :: t → False := by
          intro t eq
          obtain ⟨more, rfl⟩ := starts_of_append_closing (by decide) eq
          exact other _ rfl
        rw [readCodePoint.eq_2 _ _ other', List.take_append_of_le_length le, found,
          List.drop_append_of_le_length le]
        dsimp only
        rw [if_neg (by rw [List.length_append]; omega)]
    · cases read

theorem readEscape_append {item : CharItem} (read : readEscape text = .ok (item, rest)) :
    readEscape (text ++ [')']) = .ok (item, rest ++ [')']) := by
  unfold readEscape at read
  split at read
  · cases read
  iterate 3
    · obtain ⟨⟨c, more⟩, point, same⟩ := Except.bind_eq_ok.1 read
      obtain ⟨rfl, rfl⟩ := Prod.mk.inj (Except.ok.inj same)
      rw [List.cons_append, readEscape, readCodePoint_append point]
      rfl
  · rename_i c text noX noU noBigU
    rw [List.cons_append, readEscape]
    · split at read
      · obtain ⟨rfl, rfl⟩ := Prod.mk.inj (Except.ok.inj read)
        rfl
      · obtain ⟨rfl, rfl⟩ := Prod.mk.inj (Except.ok.inj read)
        rfl
      · cases read
    · exact noX
    · exact noU
    · exact noBigU

theorem readBoundary_append {kind : Look} (read : readBoundary text = .ok (kind, rest)) :
    readBoundary (text ++ [')']) = .ok (kind, rest ++ [')']) := by
  unfold readBoundary at read
  split at read
  · rename_i c text
    rw [List.cons_append, List.cons_append, readBoundary]
    dsimp only at read ⊢
    split at read
    · rename_i named
      rw [if_pos named]
      split at read
      · rename_i found stop
        obtain ⟨rfl, rfl⟩ := Prod.mk.inj (Except.ok.inj read)
        obtain ⟨same, same'⟩ := takeWhile_append_of_dropWhile stop [')']
        rw [List.cons_append] at same same'
        rw [same, same', found]
        rfl
      · cases read
    · rename_i unnamed
      obtain ⟨rfl, rfl⟩ := Prod.mk.inj (Except.ok.inj read)
      rw [if_neg unnamed]
      rfl
  · rename_i other
    obtain ⟨rfl, rfl⟩ := Prod.mk.inj (Except.ok.inj read)
    cases text with
    | nil => rfl
    | cons c text =>
      by_cases brace : c = '\x7b'
      · -- a brace that nothing follows
        obtain rfl := brace
        cases text with
        | nil => rfl
        | cons d text => exact absurd rfl (other d text)
      · have other' : ∀ d t, c :: (text ++ [')']) = '\x7b' :: d :: t → False :=
          fun d t eq => brace (List.cons.inj eq).1
        rw [List.cons_append, readBoundary.eq_2 _ other']

theorem readEscaped_append {r : Regex} (read : readEscaped text = .ok (r, rest)) :
    readEscaped (text ++ [')']) = .ok (r, rest ++ [')']) := by
  unfold readEscaped at read
  split at read
  · obtain ⟨⟨kind, more⟩, boundary, same⟩ := Except.bind_eq_ok.1 read
    obtain ⟨rfl, rfl⟩ := Prod.mk.inj (Except.ok.inj same)
    rw [List.cons_append, readEscaped, readBoundary_append boundary]
    rfl
  · rename_i other
    cases text with
    | nil => cases read
    | cons c text =>
      have other' : ∀ t, c :: (text ++ [')']) = 'b' :: t → False :=
        fun t eq => other text (by rw [(List.cons.inj eq).1])
      rw [List.cons_append, readEscaped.eq_2 _ other']
      rw [List.head?_cons, Option.bind_some] at read ⊢
      split at read
      · obtain ⟨rfl, rfl⟩ := Prod.mk.inj (Except.ok.inj read)
        rfl
      · obtain ⟨⟨item, more⟩, escape, same⟩ := Except.bind_eq_ok.1 read
        obtain ⟨rfl, rfl⟩ := Prod.mk.inj (Except.ok.inj same)
        rw [← List.cons_append, readEscape_append escape]
        rfl

/-! ## Counts -/

/-- What is taken never reaches over a bracket that is not taken. -/
theorem takeWhile_append_closing {p : Char → Bool} (stops : p ')' = false) (text : List Char) :
    (text ++ [')']).takeWhile p = text.takeWhile p
      ∧ (text ++ [')']).dropWhile p = text.dropWhile p ++ [')'] := by
  induction text with
  | nil => simp [stops]
  | cons c text ih =>
    rw [List.cons_append, List.takeWhile_cons, List.takeWhile_cons, List.dropWhile_cons,
      List.dropWhile_cons]
    split
    · exact ⟨congrArg _ ih.1, ih.2⟩
    · exact ⟨rfl, rfl⟩

theorem readNumber_append {n : Nat} (read : readNumber text = .ok (n, rest)) :
    readNumber (text ++ [')']) = .ok (n, rest ++ [')']) := by
  have digits := takeWhile_append_closing (p := Char.isDigit) (by decide)
  have blanks := takeWhile_append_closing (p := Text.isBlank) (by decide)
  unfold readNumber at read ⊢
  dsimp only at read ⊢
  rw [(blanks text).2, (digits _).1, (digits _).2, (blanks _).2]
  split at read
  · cases read
  · rename_i value
    split at read
    · rename_i small
      obtain ⟨rfl, rfl⟩ := Prod.mk.inj (Except.ok.inj read)
      exact if_pos small
    · cases read

theorem readCount_append {bounds : Nat × Option Nat} (read : readCount text = .ok (bounds, rest)) :
    readCount (text ++ [')']) = .ok (bounds, rest ++ [')']) := by
  obtain ⟨⟨low, more⟩, number, read⟩ := Except.bind_eq_ok.1 read
  rw [readCount, readNumber_append number]
  dsimp only at read
  split at read
  · obtain ⟨rfl, rfl⟩ := Prod.mk.inj (Except.ok.inj read)
    rfl
  · obtain ⟨rfl, rfl⟩ := Prod.mk.inj (Except.ok.inj read)
    rfl
  · rename_i more noEnd
    obtain ⟨⟨high, more'⟩, number', read⟩ := Except.bind_eq_ok.1 read
    dsimp only [bind, Except.bind]
    rw [List.cons_append]
    split
    · rename_i same
      cases same
    · -- a second bound that is left out
      rename_i same
      obtain ⟨more, rfl⟩ := starts_of_append_closing (by decide) (List.cons.inj same).2
      exact (noEnd _ rfl).elim
    · rename_i same
      obtain ⟨-, rfl⟩ := List.cons.inj same
      rw [readNumber_append number']
      dsimp only at read ⊢
      split at read
      · split at read
        · rename_i ordered
          obtain ⟨rfl, rfl⟩ := Prod.mk.inj (Except.ok.inj read)
          exact if_pos ordered
        · cases read
      · cases read
    · rename_i other
      exact (other _ rfl).elim
  · cases read

/-! ## Classes -/

theorem readItem_append {item : CharItem} (read : readItem text = .ok (item, rest)) :
    readItem (text ++ [')']) = .ok (item, rest ++ [')']) := by
  unfold readItem at read
  split at read
  · cases read
  · rw [List.cons_append, readItem]
    exact readEscape_append read
  · rename_i c text other
    obtain ⟨rfl, rfl⟩ := Prod.mk.inj (Except.ok.inj read)
    rw [List.cons_append, readItem]
    exact other

theorem readRange_append {s : CharSet} (read : readRange text = .ok (s, rest)) (whole : rest ≠ ['-']) :
    readRange (text ++ [')']) = .ok (s, rest ++ [')']) := by
  obtain ⟨⟨first, more⟩, item, read⟩ := Except.bind_eq_ok.1 read
  rw [readRange, readItem_append item]
  dsimp only at read
  split at read
  · rename_i c more'
    split at read
    · rename_i stops
      obtain ⟨rfl, rfl⟩ := Prod.mk.inj (Except.ok.inj read)
      exact if_pos stops
    · rename_i goes
      obtain ⟨⟨last, more⟩, item', read⟩ := Except.bind_eq_ok.1 read
      obtain ⟨s, range, same⟩ := Except.bind_eq_ok.1 read
      obtain ⟨rfl, rfl⟩ := Prod.mk.inj (Except.ok.inj same)
      refine (if_neg goes).trans ?_
      exact Except.bind_eq_ok.2 ⟨_, readItem_append item', Except.bind_eq_ok.2 ⟨s, range, rfl⟩⟩
  · rename_i noRange
    obtain ⟨rfl, rfl⟩ := Prod.mk.inj (Except.ok.inj read)
    dsimp only [bind, Except.bind]
    split
    · rename_i same
      match more with
      | [] => cases same
      | [c] => exact (whole (congrArg (· :: []) (List.cons.inj same).1)).elim
      | c :: d :: more => exact (noRange d more (congrArg (· :: d :: more) (List.cons.inj same).1)).elim
    · rfl

/-- A named set after its colon and its sign of negation, if there is one, and the text after it. -/
def namedAfter? (negated : Bool) (text : List Char) : Option (CharSet × List Char) :=
  match text.dropWhile (· != ':') with
  | ':' :: ']' :: rest =>
    (namedSet? (String.ofList (text.takeWhile (· != ':')))).map fun s => (negatedIf negated s, rest)
  | _ => none

theorem namedAfter?_append (negated : Bool) (text : List Char) :
    namedAfter? negated (text ++ [')'])
      = (namedAfter? negated text).map fun named => (named.1, named.2 ++ [')']) := by
  unfold namedAfter?
  cases stop : text.dropWhile (· != ':') with
  | nil =>
    rw [List.dropWhile_append, stop]
    rfl
  | cons c more =>
    obtain ⟨same, same'⟩ := takeWhile_append_of_dropWhile stop [')']
    rw [same, same']
    split
    · rename_i rest' eq
      obtain ⟨rfl, eq⟩ := List.cons.inj eq
      cases more with
      | nil => cases eq
      | cons d more =>
        cases eq
        exact (Option.map_map (fun named : CharSet × List Char => (named.1, named.2 ++ [')']))
          (fun s => (negatedIf negated s, more)) _).symm
    · rename_i other
      split
      · rename_i rest' eq
        obtain ⟨rfl, rfl⟩ := List.cons.inj eq
        exact (other _ rfl).elim
      · rfl

theorem readNamed?_append (text : List Char) :
    readNamed? (text ++ [')']) = (readNamed? text).map fun named => (named.1, named.2 ++ [')']) := by
  cases text with
  | nil => rfl
  | cons c text =>
    by_cases colon : c = ':'
    · obtain rfl := colon
      cases text with
      | nil => rfl
      | cons c text =>
        by_cases sign : c = '^'
        · obtain rfl := sign
          exact namedAfter?_append true text
        · have plain (text : List Char) : readNamed? (':' :: c :: text) = namedAfter? false (c :: text) :=
            readNamed?.eq_2 _ fun _ eq => sign (List.cons.inj eq).1
          rw [List.cons_append, List.cons_append, plain, plain]
          exact namedAfter?_append false (c :: text)
    · have unnamed (text : List Char) : readNamed? (c :: text) = none :=
        readNamed?.eq_3 _ fun _ eq => colon (List.cons.inj eq).1
      rw [List.cons_append, unnamed, unnamed]
      rfl

/-- The front of a class after its sign of negation, if there is one. -/
def frontAfter (negated : Bool) (text : List Char) : Bool × List (Nested CharSet) × List Char :=
  match text.takeWhile (· == '-'), text.dropWhile (· == '-') with
  | [], ']' :: rest => (negated, [⟨.singleton ']', 0⟩], rest)
  | _, rest => (negated, (text.takeWhile (· == '-')).map fun c => ⟨.singleton c, 0⟩, rest)

theorem frontAfter_append (negated : Bool) (text : List Char) : frontAfter negated (text ++ [')'])
    = ((frontAfter negated text).1, (frontAfter negated text).2.1, (frontAfter negated text).2.2 ++ [')']) := by
  obtain ⟨same, same'⟩ := takeWhile_append_closing (p := (· == '-')) (by decide) text
  unfold frontAfter
  rw [same, same']
  generalize text.takeWhile (· == '-') = hyphens
  generalize text.dropWhile (· == '-') = rest
  cases hyphens with
  | cons h hyphens => rfl
  | nil =>
    cases rest with
    | nil => rfl
    | cons c rest =>
      by_cases bracket : c = ']'
      · obtain rfl := bracket
        rfl
      · dsimp only [List.cons_append]
        split
        · rename_i eq
          exact (bracket (List.cons.inj eq).1).elim
        · split
          · rename_i eq
            exact (bracket (List.cons.inj eq).1).elim
          · rfl

theorem readFront_append (text : List Char) : readFront (text ++ [')'])
    = ((readFront text).1, (readFront text).2.1, (readFront text).2.2 ++ [')']) := by
  cases text with
  | nil => rfl
  | cons c text =>
    by_cases sign : c = '^'
    · obtain rfl := sign
      exact frontAfter_append true text
    · have plain (text : List Char) : readFront (c :: text) = frontAfter false (c :: text) :=
        readFront.eq_2 _ fun _ eq => sign (List.cons.inj eq).1
      rw [List.cons_append, plain, plain]
      exact frontAfter_append false (c :: text)

/-- A class is not closed by nothing, nor by a hyphen. -/
theorem readClassFrom_hyphen {fuel room : Nat} {waiting : Option (SetOperation × Nested CharSet)}
    {items : List (Nested CharSet)} {x : Nested CharSet × List Char} :
    readClassFrom fuel room waiting items ['-'] ≠ .ok x := by
  rcases fuel with _ | _ | fuel <;> exact nofun

/-- **A class that is closed** is closed with a bracket after it as well. -/
theorem readClassFrom_append {fuel fuel' room : Nat} (le : fuel ≤ fuel')
    {waiting : Option (SetOperation × Nested CharSet)} {items : List (Nested CharSet)}
    {s : Nested CharSet} (read : readClassFrom fuel room waiting items text = .ok (s, rest)) :
    readClassFrom fuel' room waiting items (text ++ [')']) = .ok (s, rest ++ [')']) := by
  induction fuel generalizing fuel' room waiting items s text rest with
  | zero => cases read
  | succ fuel ih =>
    obtain ⟨fuel', rfl⟩ := Nat.exists_eq_add_of_le' (Nat.le_of_add_left_le le)
    replace le := Nat.le_of_succ_le_succ le
    cases text with
    | nil => cases read
    | cons c text =>
      unfold readClassFrom at read
      dsimp only at read
      split at read
      · obtain ⟨rfl, rfl⟩ := Prod.mk.inj (Except.ok.inj read)
        rfl
      · exact ih le read
      · exact ih le read
      · exact ih le read
      · -- another class, or a set that has a name
        show readClassFrom (fuel' + 1) room waiting items ('[' :: (text ++ [')'])) = _
        unfold readClassFrom
        dsimp only
        rw [readNamed?_append]
        split at read
        · rename_i named
          rw [named]
          exact ih le read
        · cases read
        · rename_i inside named
          rw [named, readFront_append]
          dsimp only
          obtain ⟨⟨inner, more⟩, read, read'⟩ := Except.bind_eq_ok.1 read
          exact Except.bind_eq_ok.2 ⟨_, ih le read, ih le read'⟩
      · rename_i noClosing noClass noAnd noMinus noTilde
        obtain ⟨⟨s, more⟩, range, read'⟩ := Except.bind_eq_ok.1 read
        -- no class ends with a hyphen alone, which the bracket behind it would make a range
        have whole : more ≠ ['-'] := by
          rintro rfl
          exact readClassFrom_hyphen read'
        have range' := readRange_append range whole
        show readClassFrom (fuel' + 1) room waiting items (c :: (text ++ [')'])) = _
        unfold readClassFrom
        dsimp only
        split
        · exact (noClosing rfl).elim
        · rename_i same
          obtain ⟨more, rfl⟩ := starts_of_append_closing (by decide) same
          exact (noAnd _ rfl rfl).elim
        · rename_i same
          obtain ⟨more, rfl⟩ := starts_of_append_closing (by decide) same
          exact (noMinus _ rfl rfl).elim
        · rename_i same
          obtain ⟨more, rfl⟩ := starts_of_append_closing (by decide) same
          exact (noTilde _ rfl rfl).elim
        · exact (noClass rfl).elim
        · exact Except.bind_eq_ok.2 ⟨_, range', ih le read'⟩

theorem readClass_append {s : Nested CharSet} (read : readClass text = .ok (s, rest)) :
    readClass (text ++ [')']) = .ok (s, rest ++ [')']) := by
  rw [readClass] at read ⊢
  rw [readFront_append]
  generalize readFront text = front at read ⊢
  obtain ⟨negated, front, more⟩ := front
  obtain ⟨⟨inner, more⟩, read', same⟩ := Except.bind_eq_ok.1 read
  obtain ⟨rfl, rfl⟩ := Prod.mk.inj (Except.ok.inj same)
  exact Except.bind_eq_ok.2 ⟨_, readClassFrom_append (by simp) read', rfl⟩

/-! ## Expressions -/

/-- What was read, with all its groups one place further on. -/
def Nested.moved (part : Nested Regex) : Nested Regex := ⟨part.value.moved, part.depth⟩

theorem Nested.moved_under {f g : Regex → Regex} (same : ∀ r, (f r).moved = g r.moved)
    (part : Nested Regex) : (part.under f).moved = part.moved.under g := by
  unfold Nested.under Nested.moved
  rw [same]

theorem Nested.moved_join {build : List Regex → Regex}
    (same : ∀ rs, (build rs).moved = build (rs.map Regex.moved)) (parts : List (Nested Regex)) :
    (Nested.join build parts).moved = .join build (parts.map Nested.moved) := by
  match parts with
  | [] => exact congrArg (Nested.mk · 0) (same [])
  | [part] => rfl
  | first :: second :: parts =>
    simp only [Nested.join, Nested.moved, same, List.map_cons, List.map_reverse, List.map_map,
      List.foldl_cons, List.foldl_map, Function.comp_def]

theorem moved_rowOf (parts : List (Nested Regex)) :
    (rowOf parts).moved = rowOf (parts.map Nested.moved) :=
  Nested.moved_join moved_concat parts

theorem readLaziness_append (text : List Char) :
    readLaziness (text ++ [')']) = ((readLaziness text).1, (readLaziness text).2 ++ [')']) := by
  cases text with
  | nil => rfl
  | cons c text =>
    by_cases sign : c = '?'
    · obtain rfl := sign
      rfl
    · have greedy (text : List Char) : readLaziness (c :: text) = (true, c :: text) :=
        readLaziness.eq_2 _ fun _ eq => sign (List.cons.inj eq).1
      rw [List.cons_append, greedy, greedy]
      rfl

/-- Whether reading with a bracket at the end gives what reading without it does, if it gives
something: the groups one place further on, and the bracket after what is left. -/
def Bracketed (x y : Except SyntaxError (Nested Regex × List Char)) : Prop :=
  ∀ r rest, x = .ok (r, rest) → y = .ok (r.moved, rest ++ [')'])

namespace Bracketed

theorem refused {e : SyntaxError} {y : Except SyntaxError (Nested Regex × List Char)} :
    Bracketed (.error e) y := nofun

theorem ok {r r' : Nested Regex} (same : r.moved = r') : Bracketed (.ok (r, rest)) (.ok (r', rest ++ [')'])) := by
  rintro _ _ ⟨⟩
  rw [same]

theorem bind {α : Type} {x y : Except SyntaxError (α × List Char)} {f : α → α}
    {k k' : α × List Char → Except SyntaxError (Nested Regex × List Char)}
    (first : ∀ {a rest}, x = .ok (a, rest) → y = .ok (f a, rest ++ [')']))
    (second : ∀ a rest, Bracketed (k (a, rest)) (k' (f a, rest ++ [')']))) :
    Bracketed (x >>= k) (y >>= k') := by
  intro r rest read
  obtain ⟨⟨a, more⟩, read, read'⟩ := Except.bind_eq_ok.1 read
  exact Except.bind_eq_ok.2 ⟨_, first read, second a more _ _ read'⟩

end Bracketed

theorem moved_of_readEscaped {r : Regex} (read : readEscaped text = .ok (r, rest)) : r.moved = r := by
  unfold readEscaped at read
  split at read
  · obtain ⟨⟨kind, more⟩, -, same⟩ := Except.bind_eq_ok.1 read
    obtain ⟨rfl, -⟩ := Prod.mk.inj (Except.ok.inj same)
    rfl
  · split at read
    · obtain ⟨rfl, -⟩ := Prod.mk.inj (Except.ok.inj read)
      rfl
    · obtain ⟨⟨item, more⟩, -, same⟩ := Except.bind_eq_ok.1 read
      obtain ⟨rfl, -⟩ := Prod.mk.inj (Except.ok.inj same)
      exact moved_oneOf _

section

-- what reading goes on to do, with less fuel
variable {fuel fuel' room : Nat} (ih : ∀ room branches parts text,
    Bracketed (readFrom fuel room branches parts text)
      (readFrom fuel' room (branches.map .moved) (parts.map .moved) (text ++ [')'])))
  (branches parts : List (Nested Regex)) (text : List Char)

include ih

theorem readFrom_part_append {part part' : Nested Regex} (same : part.moved = part') :
    Bracketed (readFrom fuel room branches (part :: parts) text)
      (readFrom fuel' room (branches.map .moved) (part' :: parts.map .moved) (text ++ [')'])) := by
  rw [← same]
  exact ih _ _ _ _

/-- After a sign of repetition. -/
theorem readFrom_sign_append (low : Nat) (high : Option Nat) : Bracketed
    (match parts with
      | [] => .error .nothingToRepeat
      | part :: parts => readFrom fuel room branches
        (part.under (repetition low high (readLaziness text).1) :: parts) (readLaziness text).2)
    (match parts.map .moved with
      | [] => .error .nothingToRepeat
      | part :: parts => readFrom fuel' room (branches.map .moved)
        (part.under (repetition low high (readLaziness (text ++ [')'])).1) :: parts)
        (readLaziness (text ++ [')'])).2) := by
  cases parts with
  | nil => exact .refused
  | cons part parts =>
    rw [readLaziness_append]
    exact readFrom_part_append ih _ _ _ (Nested.moved_under (moved_repetition low high _) part)

/-- After an opening bracket. -/
theorem readFrom_group_append (room : Nat) {build build' : Regex → Regex}
    (same : ∀ r, (build r).moved = build' r.moved) : Bracketed
    (match room with
      | 0 => .error .tooDeep
      | inside + 1 => do
        let (inner, rest) ← readFrom fuel inside [] [] text
        match rest with
        | [] => .error .unclosedGroup
        | _ :: rest => readFrom fuel room branches (inner.under build :: parts) rest)
    (match room with
      | 0 => .error .tooDeep
      | inside + 1 => do
        let (inner, rest) ← readFrom fuel' inside [] [] (text ++ [')'])
        match rest with
        | [] => .error .unclosedGroup
        | _ :: rest =>
          readFrom fuel' room (branches.map .moved) (inner.under build' :: parts.map .moved) rest) := by
  cases room with
  | zero => exact .refused
  | succ inside =>
    refine .bind (ih _ _ _ _ _ _) fun inner rest => ?_
    cases rest with
    | nil => exact .refused
    | cons c rest => exact readFrom_part_append ih _ _ _ (Nested.moved_under same inner)

end

/-- **What is read with a bracket at the end** is what is read without it. -/
theorem readFrom_append {fuel fuel' : Nat} (le : fuel ≤ fuel') (room : Nat)
    (branches parts : List (Nested Regex)) (text : List Char) :
    Bracketed (readFrom fuel room branches parts text)
      (readFrom fuel' room (branches.map .moved) (parts.map .moved) (text ++ [')'])) := by
  induction fuel generalizing fuel' room branches parts text with
  | zero => exact .refused
  | succ fuel ih =>
    obtain ⟨fuel', rfl⟩ := Nat.exists_eq_add_of_le' (Nat.le_of_add_left_le le)
    replace ih := fun room => ih (Nat.le_of_succ_le_succ le) room
    have complete : (Nested.join alternation (rowOf parts :: branches)).moved
        = .join alternation (rowOf (parts.map .moved) :: branches.map .moved) := by
      rw [Nested.moved_join moved_alternation, List.map_cons, moved_rowOf]
    cases text with
    | nil => exact .ok complete
    | cons c text =>
      rw [List.cons_append]
      unfold readFrom
      dsimp only
      split
      -- what ends an expression or an alternative
      case h_1 => exact .ok complete
      case h_2 =>
        rw [← moved_rowOf]
        exact ih _ _ _ _
      -- an opening bracket: a group is a capturing one if no question mark follows, and none does
      -- with the closing bracket at the end either
      case h_3 =>
        split
        · exact readFrom_group_append ih _ _ _ _ fun _ => rfl
        · exact .refused
        · rename_i noColon noSign
          have noSign' : ∀ more, text ++ [')'] ≠ '?' :: more := by
            intro more eq
            obtain ⟨more, rfl⟩ := starts_of_append_closing (by decide) eq
            exact noSign _ rfl
          have same (r : Regex) : (capture text.length r).moved = capture (text ++ [')']).length r.moved := by
            rw [List.length_append]
            rfl
          have group := readFrom_group_append ih branches parts text room same
          cases room with
          | zero => exact .refused
          | succ inside =>
            dsimp only
            split
            · exact (noSign' _ ‹_›).elim
            · exact (noSign' _ ‹_›).elim
            · exact group
      -- a count, a class and an escape are read before reading goes on
      case h_7 =>
        rw [List.isEmpty_map]
        split
        · exact .refused
        · refine Bracketed.bind (f := id) readCount_append fun bounds rest => ?_
          exact readFrom_sign_append ih _ _ _ bounds.1 bounds.2
      case h_8 =>
        refine Bracketed.bind (f := id) readClass_append fun s rest => ?_
        exact readFrom_part_append ih _ _ _ (congrArg (Nested.mk · _) (moved_oneOf _))
      case h_9 =>
        refine Bracketed.bind (f := Regex.moved) (fun read => ?_) fun r rest =>
          readFrom_part_append ih _ _ _ (.refl _)
        rw [readEscaped_append read, moved_of_readEscaped read]
      case h_4 => exact readFrom_sign_append ih _ _ _ 0 none
      case h_5 => exact readFrom_sign_append ih _ _ _ 1 none
      case h_6 => exact readFrom_sign_append ih _ _ _ 0 (some 1)
      all_goals exact readFrom_part_append ih _ _ _ (.refl _)

/-- The text of an expression is read to its end. -/
theorem exists_readFrom_of_parse {r : Regex} (read : parse text = .ok r) :
    ∃ depth, readFrom (text.length + 1) depthLimit [] [] text = .ok (⟨r, depth⟩, []) := by
  obtain ⟨⟨inner, rest⟩, read, kept⟩ := Except.bind_eq_ok.1 read
  dsimp only at kept
  split at kept
  · cases kept
  split at kept
  · cases kept
  split at kept
  · cases kept
  · rename_i whole _ _
    obtain rfl := Except.ok.inj kept
    obtain rfl : rest = [] := by simpa using whole
    exact ⟨inner.depth, read⟩

/-- **An expression in a group behind the sign for the start** is that sign and the expression, if
it can be read by itself. -/
theorem parse_pasted {q r : Regex} (alone : parse text = .ok q)
    (pasted : parse ("\\A(?:".toList ++ text ++ [')']) = .ok r) : r = concat [look .start, q.moved] := by
  obtain ⟨depth, read⟩ := exists_readFrom_of_parse alone
  obtain ⟨depth', read'⟩ := exists_readFrom_of_parse pasted
  have inside : readFrom (text.length + 5) depthLimit [] [] (text ++ [')'])
      = .ok (⟨q.moved, depth⟩, [')']) :=
    readFrom_append (Nat.le_add_right (text.length + 1) 4) depthLimit [] [] text _ _ read
  have steps (fuel : Nat) : readFrom (fuel + 2) depthLimit [] [] ("\\A(?:".toList ++ text ++ [')'])
      = (do
        let (inner, rest) ← readFrom fuel (depthLimit - 1) [] [] (text ++ [')'])
        match rest with
        | [] => .error .unclosedGroup
        | _ :: rest => readFrom fuel depthLimit [] [inner.under id, ⟨look .start, 0⟩] rest) := rfl
  have length : ("\\A(?:".toList ++ text ++ [')']).length + 1 = text.length + 5 + 2 := by
    simp
  rw [length, steps] at read'
  obtain refused | same := readFrom_of_le (Nat.sub_le depthLimit 1) (text.length + 5) [] [] (text ++ [')'])
  · rw [refused] at read'
    cases read'
  · rw [same, inside] at read'
    exact (congrArg Nested.value (Prod.mk.inj (Except.ok.inj read')).1).symm

end Polyglot.Regex
