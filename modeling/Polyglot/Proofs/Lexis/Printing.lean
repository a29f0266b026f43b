import Polyglot.Proofs.Lexis.Lexicon
import Polyglot.Proofs.Success
import Mathlib.Data.List.Forall2

/-!
# Reading back what was printed

A text that holds tokens, with blanks before some of them, is cut into these tokens again,
if no token is followed by a character that could go on with it (`Lexicon.Laid`,
`Lexicon.tokenize_laid`). What can go on with a text is a question to each shape
(`Shape.continues`), so it can be settled for all texts at once: nothing goes on with a
bracket, and no shape but that of a word goes on with a letter.

The tokens must be *whole* (`Lexicon.Whole`): each is what its text alone is cut into. The
tokens of any source are.
-/

namespace Polyglot.Lexicon

open Polyglot.Source
open Regex.Program Vocabulary

/-! ## How far a shape reaches -/

theorem run_append (set : CharSet) (text rest : List Char) :
    run set (text ++ rest) = run set text
      ∨ run set text = text.length ∧ text.length < run set (text ++ rest)
        ∧ ∀ c ∈ rest.head?, set.contains c := by
  induction text with
  | nil =>
    cases rest with
    | nil => exact .inl rfl
    | cons c rest =>
      by_cases mem : set.contains c
      · exact .inr ⟨rfl, by simp [run, mem], by simpa using mem⟩
      · exact .inl (by simp [run, mem])
  | cons c text ih =>
    by_cases mem : set.contains c
    · rcases ih with eq | ⟨all, more, next⟩
      · exact .inl (by simp [run, mem, eq])
      · exact .inr ⟨by simp [run, mem, all], by simpa [run, mem] using more, next⟩
    · exact .inl (by simp [run, mem])

theorem run_le (set : CharSet) (text : List Char) : run set text ≤ text.length := by
  induction text with
  | nil => exact Nat.le_refl _
  | cons c text ih =>
    unfold run
    split
    · exact Nat.succ_le_succ ih
    · exact Nat.zero_le _

theorem closing_le {mark : Char} {bar : Bool} {text : List Char} {n : Nat}
    (eq : closing mark bar text = some n) : n ≤ text.length := by
  induction text generalizing bar n with
  | nil => cases bar <;> cases eq
  | cons c text ih =>
    have more {bar : Bool} (eq : (closing mark bar text).map (· + 1) = some n) :
        n ≤ (c :: text).length := by
      obtain ⟨m, found, rfl⟩ := Option.map_eq_some_iff.1 eq
      exact Nat.succ_le_succ (ih found)
    cases bar with
    | true =>
      unfold closing at eq
      split at eq
      · cases eq
      · exact more eq
    | false =>
      unfold closing at eq
      split at eq
      · obtain rfl := Option.some.inj eq
        exact Nat.succ_le_succ (Nat.zero_le _)
      split at eq
      · cases eq
      · exact more eq

theorem closing_pos {mark : Char} {bar : Bool} {text : List Char} {n : Nat}
    (eq : closing mark bar text = some n) : 0 < n := by
  cases text with
  | nil => cases bar <;> cases eq
  | cons c text =>
    have more {bar : Bool} (eq : (closing mark bar text).map (· + 1) = some n) : 0 < n := by
      obtain ⟨m, -, rfl⟩ := Option.map_eq_some_iff.1 eq
      exact Nat.succ_pos m
    cases bar with
    | true =>
      unfold closing at eq
      split at eq
      · cases eq
      · exact more eq
    | false =>
      unfold closing at eq
      split at eq
      · obtain rfl := Option.some.inj eq
        exact Nat.one_pos
      split at eq
      · cases eq
      · exact more eq

theorem closing_append (mark : Char) (bar : Bool) (text rest : List Char) :
    closing mark bar (text ++ rest) = closing mark bar text
      ∨ closing mark bar text = none
        ∧ ∃ n, closing mark bar (text ++ rest) = some n ∧ text.length < n := by
  induction text generalizing bar with
  | nil =>
    have start : closing mark bar [] = none := by cases bar <;> rfl
    cases found : closing mark bar ([] ++ rest) with
    | none => exact .inl start.symm
    | some n => exact .inr ⟨start, n, rfl, closing_pos found⟩
  | cons c text ih =>
    have more (bar : Bool) :
        (closing mark bar (text ++ rest)).map (· + 1) = (closing mark bar text).map (· + 1)
        ∨ (closing mark bar text).map (· + 1) = none
          ∧ ∃ n, (closing mark bar (text ++ rest)).map (· + 1) = some n
            ∧ (c :: text).length < n := by
      rcases ih bar with eq | ⟨none, n, eq, lt⟩
      · exact .inl (congrArg _ eq)
      · exact .inr ⟨by rw [none]; rfl, n + 1, by rw [eq]; rfl, Nat.succ_lt_succ lt⟩
    rw [List.cons_append]
    cases bar with
    | true =>
      unfold closing
      split
      · exact .inl rfl
      · exact more false
    | false =>
      unfold closing
      split
      · exact .inl rfl
      split
      · exact .inl rfl
      · exact more _

namespace Shape

/-- Whether a shape may match more than a text if a character comes after it. -/
def continues (s : Shape) (text : List Char) (c : Char) : Bool :=
  match s with
  | exact whole => (text ++ [c]).isPrefixOf whole.toList
  | identifier => (identifier.reach? text == some text.length) && wordParts.contains c
  | integer => (integer.reach? text == some text.length) && digits.contains c
  | string => text.head? == some '"' && (string.reach? text).isNone
  | regex => text.head? == some '/' && (regex.reach? text).isNone

theorem reach?_le {s : Shape} {text : List Char} {n : Nat} (eq : s.reach? text = some n) :
    n ≤ text.length := by
  have loop {first others : CharSet} (eq : reachOf first others text = some n) :
      n ≤ text.length := by
    unfold reachOf at eq
    split at eq
    · cases eq
    split at eq
    · obtain rfl := Option.some.inj eq
      exact Nat.succ_le_succ (run_le ..)
    · cases eq
  have marked {mark : Char} (eq : reachBetween mark text = some n) : n ≤ text.length := by
    unfold reachBetween at eq
    split at eq
    · cases eq
    split at eq
    · obtain ⟨m, found, rfl⟩ := Option.map_eq_some_iff.1 eq
      exact Nat.succ_le_succ (closing_le found)
    · cases eq
  cases s with
  | exact whole =>
    change reachExactly whole.toList text = some n at eq
    unfold reachExactly at eq
    split at eq
    · obtain rfl := Option.some.inj eq
      exact (List.isPrefixOf_iff_prefix.1 ‹_›).length_le
    · cases eq
  | identifier => exact loop eq
  | integer => exact loop eq
  | string => exact marked eq
  | regex => exact marked eq

/-- With more text after it, a shape reaches as far into a text as without, or beyond
it. -/
theorem reach?_append (s : Shape) {text : List Char} (ne : text ≠ []) (rest : List Char) :
    s.reach? (text ++ rest) = s.reach? text
      ∨ (∃ n, s.reach? (text ++ rest) = some n ∧ text.length < n)
        ∧ ∀ c ∈ rest.head?, s.continues text c := by
  obtain ⟨d, text, rfl⟩ := List.exists_cons_of_ne_nil ne
  -- a run stops in the text as before, or takes all of it and what follows
  have loop {first others : CharSet} :
      reachOf first others (d :: text ++ rest) = reachOf first others (d :: text)
        ∨ (∃ n, reachOf first others (d :: text ++ rest) = some n ∧ (d :: text).length < n)
          ∧ reachOf first others (d :: text) = some (d :: text).length
          ∧ ∀ c ∈ rest.head?, others.contains c := by
    by_cases mem : first.contains d
    · rcases run_append others text rest with eq | ⟨all, more, next⟩
      · exact .inl (by simp [reachOf, mem, eq])
      · exact .inr ⟨⟨run others (text ++ rest) + 1, by simp [reachOf, mem], by simpa using more⟩,
        by simp [reachOf, mem, all], next⟩
    · exact .inl (by simp [reachOf, mem])
  -- the closing mark is found in the text as before, or only behind it
  have marked {mark : Char} :
      reachBetween mark (d :: text ++ rest) = reachBetween mark (d :: text)
        ∨ (∃ n, reachBetween mark (d :: text ++ rest) = some n ∧ (d :: text).length < n)
          ∧ d = mark ∧ reachBetween mark (d :: text) = none := by
    by_cases same : d = mark
    · rcases closing_append mark false text rest with eq | ⟨none, n, eq, lt⟩
      · exact .inl (by simp [reachBetween, eq])
      · exact .inr ⟨⟨n + 1, by simp [reachBetween, same, eq], by simpa using lt⟩, same,
          by simp [reachBetween, none]⟩
    · exact .inl (by simp [reachBetween, same])
  cases s with
  | exact whole =>
    show reachExactly _ _ = reachExactly _ _ ∨ (∃ n, reachExactly _ _ = _ ∧ _) ∧ _
    unfold reachExactly
    by_cases isPrefix : whole.toList.isPrefixOf (d :: text ++ rest)
    · rw [if_pos isPrefix]
      rw [List.isPrefixOf_iff_prefix] at isPrefix
      rcases Nat.lt_or_ge (d :: text).length whole.toList.length with lt | ge
      · refine .inr ⟨⟨_, rfl, lt⟩, fun c mem => ?_⟩
        obtain ⟨rest', rfl⟩ := List.head?_eq_some_iff.1 mem
        refine List.isPrefixOf_iff_prefix.2 (List.prefix_of_prefix_length_le ⟨rest', ?_⟩ isPrefix ?_)
        · simp
        · rw [List.length_append]
          exact lt
      · have shorter := List.prefix_of_prefix_length_le isPrefix (List.prefix_append _ rest) ge
        exact .inl (by rw [if_pos (List.isPrefixOf_iff_prefix.2 shorter)])
    · rw [if_neg isPrefix, if_neg fun shorter => isPrefix (List.isPrefixOf_iff_prefix.2
        ((List.isPrefixOf_iff_prefix.1 shorter).trans (List.prefix_append _ rest)))]
      exact .inl rfl
  | identifier | integer =>
    refine loop.imp_right ?_
    rintro ⟨further, all, next⟩
    refine ⟨further, fun c mem => ?_⟩
    exact Bool.and_eq_true_iff.2 ⟨beq_iff_eq.2 all, next c mem⟩
  | string | regex =>
    refine marked.imp_right ?_
    rintro ⟨further, same, open_⟩
    refine ⟨further, fun c mem => ?_⟩
    exact Bool.and_eq_true_iff.2 ⟨by simp [same], by rw [reach?, open_]; rfl⟩

/-- Whether a text that a shape matches may start with a character. -/
def starts (s : Shape) (c : Char) : Bool :=
  match s with
  | exact whole => whole.toList.head? == some c
  | identifier => initials.contains c
  | integer => digits.contains c
  | string => c == '"'
  | regex => c == '/'

theorem starts_of_reach? {s : Shape} {c : Char} {text : List Char} {n : Nat}
    (eq : s.reach? (c :: text) = some n) (pos : n ≠ 0) : s.starts c := by
  have loop {first others : CharSet} (eq : reachOf first others (c :: text) = some n) :
      first.contains c := by
    refine Decidable.of_not_not fun no => ?_
    rw [reachOf, if_neg no] at eq
    cases eq
  have marked {mark : Char} (eq : reachBetween mark (c :: text) = some n) : c == mark := by
    refine Decidable.of_not_not fun no => ?_
    rw [reachBetween, if_neg fun same => no (beq_iff_eq.2 same)] at eq
    cases eq
  cases s with
  | exact whole =>
    change reachExactly whole.toList (c :: text) = some n at eq
    unfold reachExactly at eq
    split at eq
    · obtain rfl := Option.some.inj eq
      obtain ⟨d, rest, list⟩ := List.exists_cons_of_ne_nil (List.length_pos_iff.1
        (Nat.pos_of_ne_zero pos))
      rename_i isPrefix
      rw [list, List.isPrefixOf_cons_cons, Bool.and_eq_true, beq_iff_eq] at isPrefix
      show (whole.toList.head? == some c) = true
      rw [list, List.head?_cons, isPrefix.1, beq_self_eq_true]
    · cases eq
  | identifier => exact loop eq
  | integer => exact loop eq
  | string => exact marked eq
  | regex => exact marked eq

end Shape

variable (l : Lexicon)

/-- Whether some shape may match more than a text if a character comes after it. -/
def continues (text : List Char) (c : Char) : Bool := l.shapes.any (·.continues text c)

/-- Whether the exact texts of a lexicon have no blanks in them and start like no comment
and no text between marks. -/
def tidy : Bool :=
  l.shapes.all fun s =>
    match s with
    | .exact whole =>
      whole.toList.all (fun c => !Text.isBlank c)
        && !(['"', '#'].any (whole.toList.head? == some ·))
        && !(l.shapes.contains .regex && whole.toList.head? == some '/')
    | _ => true

variable {l}

/-! ## The longest match -/

/-- What the fold over the shapes keeps: the best match so far is one of the matches, takes
something, and is as long as any. -/
structure Best (text : List Char) (shapes : List Shape) (best : Option (Shape × Nat)) : Prop where
  /-- It is one of the matches. -/
  mem : ∀ s n, best = some (s, n) → s ∈ shapes ∧ s.reach? text = some n ∧ n ≠ 0
  /-- It is as long as any. -/
  le : ∀ s ∈ shapes, ∀ m, s.reach? text = some m → m ≠ 0 → ∃ s' n, best = some (s', n) ∧ m ≤ n

theorem better_cases (text : List Char) (best : Option (Shape × Nat)) (candidate : Shape × Nat) :
    better text best candidate = some candidate
        ∧ (∀ s n, best = some (s, n) → n ≤ candidate.2)
      ∨ better text best candidate = best ∧ ∃ s n, best = some (s, n) ∧ candidate.2 ≤ n := by
  unfold better
  split
  · exact .inl ⟨rfl, nofun⟩
  · rename_i shape length
    split
    · rename_i lt
      refine .inl ⟨rfl, fun s n eq => ?_⟩
      obtain ⟨-, rfl⟩ := Prod.mk.inj (Option.some.inj eq)
      exact Nat.le_of_lt lt
    · rename_i ge
      split
      · rename_i same
        refine .inl ⟨rfl, fun s n eq => ?_⟩
        obtain ⟨-, rfl⟩ := Prod.mk.inj (Option.some.inj eq)
        exact Nat.le_of_eq same.1.symm
      · exact .inr ⟨rfl, shape, length, rfl, Nat.le_of_not_lt ge⟩

theorem Best.step {text : List Char} {shapes : List Shape} {best : Option (Shape × Nat)}
    (h : Best text shapes best) (shape : Shape) :
    Best text (shapes ++ [shape])
      (match shape.reach? text with
        | none => best
        | some 0 => best
        | some length => better text best (shape, length)) := by
  have older {s : Shape} (mem : s ∈ shapes) : s ∈ shapes ++ [shape] := List.mem_append_left _ mem
  have unchanged (no : ∀ m, shape.reach? text = some m → m = 0) :
      Best text (shapes ++ [shape]) best := by
    refine ⟨fun s n eq => ?_, fun s mem m reaches pos => ?_⟩
    · obtain ⟨mem, rest⟩ := h.mem s n eq
      exact ⟨older mem, rest⟩
    · rcases List.mem_append.1 mem with mem | mem
      · exact h.le s mem m reaches pos
      · obtain rfl := List.mem_singleton.1 mem
        exact absurd (no m reaches) pos
  split
  · rename_i none
    exact unchanged fun m eq => by rw [none] at eq; cases eq
  · rename_i zero
    exact unchanged fun m eq => by rw [zero] at eq; exact (Option.some.inj eq).symm
  · rename_i length zero reaches
    have pos : length ≠ 0 := fun eq => zero (by rw [eq])
    -- the shape takes the place of the best one, or that is at least as long and stays
    rcases better_cases text best (shape, length) with ⟨eq, le⟩ | ⟨eq, s', n, eq', le⟩
    · rw [eq]
      refine ⟨fun s n eq => ?_, fun s mem m reaches' pos' => ⟨shape, length, rfl, ?_⟩⟩
      · obtain ⟨rfl, rfl⟩ := Prod.mk.inj (Option.some.inj eq)
        exact ⟨List.mem_append_right _ (List.mem_singleton.2 rfl), reaches, pos⟩
      · rcases List.mem_append.1 mem with mem | mem
        · obtain ⟨s', n, eq', le'⟩ := h.le s mem m reaches' pos'
          exact Nat.le_trans le' (le s' n eq')
        · obtain rfl := List.mem_singleton.1 mem
          exact Nat.le_of_eq (Option.some.inj (reaches'.symm.trans reaches))
    · rw [eq]
      refine ⟨fun s n eq => ?_, fun s mem m reaches' pos' => ?_⟩
      · obtain ⟨mem, rest⟩ := h.mem s n eq
        exact ⟨older mem, rest⟩
      · rcases List.mem_append.1 mem with mem | mem
        · exact h.le s mem m reaches' pos'
        · obtain rfl := List.mem_singleton.1 mem
          obtain rfl := Option.some.inj (reaches'.symm.trans reaches)
          exact ⟨s', n, eq', le⟩

/-- **The longest match** is one of the matches, and takes something. -/
theorem best_longest (l : Lexicon) (text : List Char) : Best text l.shapes (l.longest text) := by
  have fold (done shapes : List Shape) (best : Option (Shape × Nat)) (h : Best text done best) :
      Best text (done ++ shapes) (shapes.foldl (fun best shape =>
        match shape.reach? text with
        | none => best
        | some 0 => best
        | some length => better text best (shape, length)) best) := by
    induction shapes generalizing done best with
    | nil => rwa [List.append_nil]
    | cons shape shapes ih =>
      rw [List.foldl_cons, List.append_cons]
      exact ih _ _ (h.step shape)
  exact fold [] l.shapes none ⟨nofun, nofun⟩

/-- If nothing reaches beyond a text, the longest match is that in the text alone. -/
theorem longest_append {text : List Char} (ne : text ≠ []) (rest : List Char)
    (ends : ∀ s ∈ l.shapes, ∀ n, s.reach? (text ++ rest) = some n → n ≤ text.length) :
    l.longest (text ++ rest) = l.longest text := by
  have same {s : Shape} (mem : s ∈ l.shapes) : s.reach? (text ++ rest) = s.reach? text := by
    rcases s.reach?_append ne rest with eq | ⟨⟨n, eq, lt⟩, -⟩
    · exact eq
    · exact absurd (ends s mem n eq) (Nat.not_le_of_lt lt)
  have fold (shapes : List Shape) (sub : ∀ s ∈ shapes, s ∈ l.shapes)
      (best : Option (Shape × Nat)) (short : ∀ s n, best = some (s, n) → n ≤ text.length) :
      shapes.foldl (fun best shape =>
          match shape.reach? (text ++ rest) with
          | none => best
          | some 0 => best
          | some length => better (text ++ rest) best (shape, length)) best
        = shapes.foldl (fun best shape =>
          match shape.reach? text with
          | none => best
          | some 0 => best
          | some length => better text best (shape, length)) best := by
    induction shapes generalizing best with
    | nil => rfl
    | cons shape shapes ih =>
      have here := sub shape (List.mem_cons_self ..)
      have sub' : ∀ s ∈ shapes, s ∈ l.shapes := fun s mem => sub s (List.mem_cons_of_mem _ mem)
      rw [List.foldl_cons, List.foldl_cons, same here]
      split
      · exact ih sub' best short
      · exact ih sub' best short
      · rename_i length _ reaches
        -- which of two is better may depend on what the best has taken, but that is not longer than the text
        have agree : better (text ++ rest) best (shape, length) = better text best (shape, length) := by
          cases best with
          | none => rfl
          | some found =>
            unfold better
            dsimp only
            rw [List.take_append_of_le_length (short found.1 found.2 rfl)]
        rw [agree]
        refine ih sub' _ fun s n eq => ?_
        rcases better_cases text best (shape, length) with ⟨eq', -⟩ | ⟨eq', -⟩
        · rw [eq'] at eq
          obtain ⟨-, rfl⟩ := Prod.mk.inj (Option.some.inj eq)
          exact Shape.reach?_le reaches
        · exact short s n (eq'.symm.trans eq)
  exact fold l.shapes (fun _ mem => mem) none nofun

/-- Where nothing goes on with a text, the longest match in it is that with more behind it. -/
theorem longest_append_of_ends {text rest : List Char} (ne : text ≠ [])
    (ends : ∀ c ∈ rest.head?, l.continues text c = false) : l.longest (text ++ rest) = l.longest text := by
  refine longest_append ne rest fun s mem n reaches => Nat.le_of_not_lt fun lt => ?_
  rcases s.reach?_append ne rest with eq | ⟨-, goesOn⟩
  · exact Nat.not_lt_of_le (Shape.reach?_le (eq.symm.trans reaches)) lt
  · cases rest with
    | nil =>
      rw [List.append_nil] at reaches
      exact Nat.not_lt_of_le (Shape.reach?_le reaches) lt
    | cons c rest =>
      have goesOn : l.continues text c := List.any_eq_true.2 ⟨s, mem, goesOn c rfl⟩
      rw [ends c rfl] at goesOn
      cases goesOn

/-! ## Whole tokens -/

/-- Whether a token is what its text alone is cut into. -/
def Whole (l : Lexicon) (t : Token) : Prop :=
  ∃ s, l.longest t.lexeme.toList = some (s, t.lexeme.toList.length)
    ∧ t.agrees (tokenOf s.entry .start t.lexeme.toList)

theorem Whole.ne_nil {t : Token} (h : l.Whole t) : t.lexeme.toList ≠ [] := by
  obtain ⟨s, eq, -⟩ := h
  obtain ⟨-, -, pos⟩ := (best_longest l t.lexeme.toList).mem _ _ eq
  exact fun nil => pos (by rw [nil]; rfl)

theorem Whole.isEmpty {t : Token} (h : l.Whole t) : t.isEmpty = false := by
  refine Bool.eq_false_iff.2 fun empty => h.ne_nil ?_
  rw [String.isEmpty_iff.1 empty]
  rfl

/-- The text of the longest match is cut in the same way when it stands alone. -/
theorem longest_take {text : List Char} {s : Shape} {n : Nat} (eq : l.longest text = some (s, n)) :
    n ≤ text.length ∧ l.longest (text.take n) = some (s, n) := by
  have best := best_longest l text
  obtain ⟨-, reaches, pos⟩ := best.mem s n eq
  have le := Shape.reach?_le reaches
  have length : (text.take n).length = n := List.length_take_of_le le
  refine ⟨le, ?_⟩
  have ne : text.take n ≠ [] := fun nil => pos (by rw [← length, nil]; rfl)
  rw [← longest_append ne (text.drop n), List.take_append_drop, eq]
  · intro s' mem m reaches'
    rw [List.take_append_drop] at reaches'
    rw [length]
    by_cases zero : m = 0
    · exact zero ▸ Nat.zero_le n
    · obtain ⟨s'', n', eq', le'⟩ := best.le s' mem m reaches' zero
      obtain ⟨-, rfl⟩ := Prod.mk.inj (Option.some.inj (eq.symm.trans eq'))
      exact le'

/-- **The tokens of a source** are whole. -/
theorem whole_of_tokensFrom {fuel : Nat} {place : Place} {ts : List Token}
    (eq : l.tokensFrom fuel place = .ok ts) : ∀ t ∈ ts, l.Whole t := by
  induction fuel generalizing place ts with
  | zero =>
    obtain rfl := Except.ok.inj eq
    nofun
  | succ fuel ih =>
    unfold tokensFrom at eq
    generalize l.skipGap (fuel + 1) place = here at eq
    dsimp only at eq
    split at eq
    · obtain rfl := Except.ok.inj eq
      nofun
    rename_i c rest starts
    split at eq
    · cases eq
    rename_i s n found
    obtain ⟨more, further, same⟩ := Except.bind_eq_ok.1 eq
    obtain rfl := Except.ok.inj same
    intro t mem
    rcases List.mem_cons.1 mem with rfl | mem
    · obtain ⟨le, alone⟩ := longest_take found
      refine ⟨s, ?_, ?_⟩
      · simp only [tokenOf, String.toList_ofList, alone, List.length_take_of_le le]
      · simp [tokenOf, Token.agrees, String.toList_ofList]
    · exact ih further t mem

/-- The characters of words are no blanks, and no marks of anything else. -/
theorem of_wordParts {c : Char} (mem : wordParts.contains c) :
    Text.isBlank c = false ∧ c ≠ '"' ∧ c ≠ '#' ∧ c ≠ '/' := by
  simp only [wordParts, CharSet.contains, List.any_cons, List.any_nil, Bool.or_false,
    Bool.or_eq_true, Bool.and_eq_true, decide_eq_true_eq] at mem
  refine ⟨?_, ?_, ?_, ?_⟩
  · simp only [Text.isBlank, Text.blankRanges, List.any_cons, List.any_nil, Bool.or_false,
      Bool.or_eq_false_iff, Bool.and_eq_false_iff, decide_eq_false_iff_not]
    omega
  all_goals
    rintro rfl
    revert mem
    decide

theorem wordParts_of_initials {c : Char} (mem : initials.contains c) : wordParts.contains c := by
  simp only [initials, wordParts, CharSet.contains, List.any_cons, List.any_nil, Bool.or_false,
    Bool.or_eq_true, Bool.and_eq_true, decide_eq_true_eq] at mem ⊢
  omega

theorem wordParts_of_digits {c : Char} (mem : digits.contains c) : wordParts.contains c := by
  simp only [digits, wordParts, CharSet.contains, List.any_cons, List.any_nil, Bool.or_false,
    Bool.or_eq_true, Bool.and_eq_true, decide_eq_true_eq] at mem ⊢
  omega

/-- What a tidy lexicon says of an exact text. -/
theorem exact_of_tidy (tidy : l.tidy) {whole : String} (mem : .exact whole ∈ l.shapes) :
    (∀ c ∈ whole.toList, Text.isBlank c = false) ∧ whole.toList.head? ≠ some '"'
      ∧ whole.toList.head? ≠ some '#' ∧ (.regex ∈ l.shapes → whole.toList.head? ≠ some '/') := by
  have here := List.all_eq_true.1 tidy _ mem
  simpa [and_assoc, List.contains_iff_mem, Decidable.imp_iff_not_or] using here

/-- What may start with the mark of a text is a text, what may start with that of a pattern
is a pattern, if there are any, and nothing starts with a blank or like a comment. -/
theorem starts_of_tidy (tidy : l.tidy) {s : Shape} (mem : s ∈ l.shapes) {c : Char}
    (eq : s.starts c) :
    Text.isBlank c = false ∧ c ≠ '#' ∧ (c = '"' → s = .string)
      ∧ (c = '/' → .regex ∈ l.shapes → s = .regex) := by
  cases s with
  | exact whole =>
    obtain ⟨noBlank, noText, noComment, noPattern⟩ := exact_of_tidy tidy mem
    have head := beq_iff_eq.1 eq
    obtain ⟨rest, list⟩ := List.head?_eq_some_iff.1 head
    refine ⟨noBlank c (list ▸ List.mem_cons_self ..), ?_, ?_, ?_⟩
    · rintro rfl
      exact noComment head
    · rintro rfl
      exact absurd head noText
    · rintro rfl patterns
      exact absurd head (noPattern patterns)
  | identifier =>
    obtain ⟨blank, text, comment, pattern⟩ := of_wordParts (wordParts_of_initials eq)
    exact ⟨blank, comment, fun is => absurd is text, fun is => absurd is pattern⟩
  | integer =>
    obtain ⟨blank, text, comment, pattern⟩ := of_wordParts (wordParts_of_digits eq)
    exact ⟨blank, comment, fun is => absurd is text, fun is => absurd is pattern⟩
  | string =>
    obtain rfl := beq_iff_eq.1 eq
    exact ⟨by decide, by decide, fun _ => rfl, fun is => absurd is (by decide)⟩
  | regex =>
    obtain rfl := beq_iff_eq.1 eq
    exact ⟨by decide, by decide, fun is => absurd is (by decide), fun _ _ => rfl⟩

/-- The shape of a whole token. -/
theorem Whole.exists_shape {t : Token} (h : l.Whole t) :
    ∃ s ∈ l.shapes, s.reach? t.lexeme.toList = some t.lexeme.toList.length
      ∧ ∀ c ∈ t.lexeme.toList.head?, s.starts c := by
  obtain ⟨s, eq, -⟩ := h
  obtain ⟨mem, reaches, pos⟩ := (best_longest l t.lexeme.toList).mem _ _ eq
  refine ⟨s, mem, reaches, fun c first => ?_⟩
  obtain ⟨rest, list⟩ := List.head?_eq_some_iff.1 first
  rw [list] at reaches pos
  exact Shape.starts_of_reach? reaches pos

/-- A whole token starts neither with a blank nor like a comment. -/
theorem Whole.head {t : Token} (tidy : l.tidy) (h : l.Whole t) :
    ∀ c ∈ t.lexeme.toList.head?, Text.isBlank c = false ∧ c ≠ '#' := by
  intro c first
  obtain ⟨s, mem, -, starts⟩ := h.exists_shape
  obtain ⟨blank, comment, -⟩ := starts_of_tidy tidy mem (starts c first)
  exact ⟨blank, comment⟩

/-- What goes on with a whole token is part of an exact text, or of a word. -/
theorem Whole.continues_cases {t : Token} {c : Char} (tidy : l.tidy) (h : l.Whole t)
    (eq : l.continues t.lexeme.toList c) :
    (∃ whole, .exact whole ∈ l.shapes ∧ t.lexeme.toList ++ [c] <+: whole.toList)
      ∨ wordParts.contains c := by
  obtain ⟨s, mem, eq⟩ := List.any_eq_true.1 eq
  obtain ⟨s', mem', reaches, starts⟩ := h.exists_shape
  -- a text between marks is closed within the token, which starts with a mark
  have closed {c : Char} (first : t.lexeme.toList.head? = some c) (same : s' = s) :
      (s.reach? t.lexeme.toList).isNone = false := by
    rw [← same, reaches]
    rfl
  cases s with
  | exact whole => exact .inl ⟨whole, mem, List.isPrefixOf_iff_prefix.1 eq⟩
  | identifier => exact .inr (Bool.and_eq_true_iff.1 eq).2
  | integer => exact .inr (wordParts_of_digits (Bool.and_eq_true_iff.1 eq).2)
  | string =>
    obtain ⟨first, open_⟩ := Bool.and_eq_true_iff.1 eq
    have first := beq_iff_eq.1 first
    have same := (starts_of_tidy tidy mem' (starts _ first)).2.2.1 rfl
    rw [closed first same] at open_
    cases open_
  | regex =>
    obtain ⟨first, open_⟩ := Bool.and_eq_true_iff.1 eq
    have first := beq_iff_eq.1 first
    have same := (starts_of_tidy tidy mem' (starts _ first)).2.2.2 rfl mem
    rw [closed first same] at open_
    cases open_

/-- A blank goes on with no whole token. -/
theorem Whole.not_continues_blank {t : Token} {c : Char} (tidy : l.tidy) (h : l.Whole t)
    (blank : Text.isBlank c) : l.continues t.lexeme.toList c = false := by
  refine Bool.eq_false_iff.2 fun eq => ?_
  rcases h.continues_cases tidy eq with ⟨whole, mem, isPrefix⟩ | part
  · have mem_c : c ∈ whole.toList := isPrefix.subset (by simp)
    rw [(exact_of_tidy tidy mem).1 c mem_c] at blank
    cases blank
  · rw [(of_wordParts part).1] at blank
    cases blank

/-- Whether nothing goes on with a text. -/
def isClosed (l : Lexicon) (text : List Char) : Bool :=
  l.shapes.all fun s =>
    match s with
    | .exact whole => !text.isPrefixOf whole.toList || whole.toList.length ≤ text.length
    | .identifier => s.reach? text != some text.length
    | .integer => s.reach? text != some text.length
    | .string => text.head? != some '"'
    | .regex => text.head? != some '/'

theorem not_continues_of_isClosed {text : List Char} (closed : l.isClosed text) (c : Char) :
    l.continues text c = false := by
  refine Bool.eq_false_iff.2 fun eq => ?_
  obtain ⟨s, mem, eq⟩ := List.any_eq_true.1 eq
  have closed := List.all_eq_true.1 closed s mem
  cases s with
  | exact whole =>
    have longer := List.isPrefixOf_iff_prefix.1 eq
    rcases Bool.or_eq_true_iff.1 closed with no | le
    · rw [Bool.not_eq_true', Bool.eq_false_iff] at no
      exact no (List.isPrefixOf_iff_prefix.2 ((List.prefix_append _ _).trans longer))
    · have le' := longer.length_le
      rw [List.length_append, List.length_singleton] at le'
      exact absurd (of_decide_eq_true le) (by omega)
  | identifier => exact bne_iff_ne.1 closed (beq_iff_eq.1 (Bool.and_eq_true_iff.1 eq).1)
  | integer => exact bne_iff_ne.1 closed (beq_iff_eq.1 (Bool.and_eq_true_iff.1 eq).1)
  | string => exact bne_iff_ne.1 closed (beq_iff_eq.1 (Bool.and_eq_true_iff.1 eq).1)
  | regex => exact bne_iff_ne.1 closed (beq_iff_eq.1 (Bool.and_eq_true_iff.1 eq).1)

/-- Whether a character goes on with no whole token: it is in no word, and wherever it is in
an exact text, what is before it is no token. -/
def isOpening (l : Lexicon) (c : Char) : Bool :=
  !wordParts.contains c && l.shapes.all fun s =>
    match s with
    | .exact whole => (List.range whole.toList.length).all fun n =>
      whole.toList[n]? != some c || (l.longest (whole.toList.take n)).map Prod.snd != some n
    | _ => true

theorem Whole.not_continues_of_isOpening {t : Token} {c : Char} (tidy : l.tidy) (h : l.Whole t)
    (opening : l.isOpening c) : l.continues t.lexeme.toList c = false := by
  refine Bool.eq_false_iff.2 fun eq => ?_
  obtain ⟨noPart, exacts⟩ := Bool.and_eq_true_iff.1 opening
  rcases h.continues_cases tidy eq with ⟨whole, mem, rest, list⟩ | part
  · have here := List.all_eq_true.1 (List.all_eq_true.1 exacts _ mem) t.lexeme.toList.length
      (List.mem_range.2 (by simp [← list]))
    obtain ⟨s, longest, -⟩ := h
    rw [← list, List.append_assoc] at here
    simp [longest] at here
  · rw [part] at noPart
    cases noPart

/-! ## Texts that hold tokens -/

/-- Whether all of some characters are blanks. -/
def Blank (gap : List Char) : Prop := ∀ c ∈ gap, Text.isBlank c

instance (gap : List Char) : Decidable (Blank gap) :=
  decidable_of_iff (gap.all Text.isBlank) List.all_eq_true

/-- Whether a text holds tokens, with blanks between them, in such a way that none goes
on with what comes after it. -/
inductive Laid (l : Lexicon) : List Token → List Char → Prop
  /-- After the last token there are only blanks. -/
  | done {gap : List Char} : Blank gap → Laid l [] gap
  /-- A token, after some blanks. -/
  | token {gap text : List Char} {t : Token} {ts : List Token} :
      Blank gap → (∀ c ∈ text.head?, l.continues t.lexeme.toList c = false) → Laid l ts text →
      Laid l (t :: ts) (gap ++ (t.lexeme.toList ++ text))

theorem Blank.append {gap more : List Char} (h : Blank gap) (h' : Blank more) :
    Blank (gap ++ more) :=
  List.forall_mem_append.2 ⟨h, h'⟩

theorem Blank.head {gap : List Char} (h : Blank gap) : ∀ c ∈ gap.head?, Text.isBlank c :=
  fun c first => h c (List.mem_of_mem_head? first)

theorem Laid.after_blank (gap : List Char) {text : List Char} {ts : List Token} (blank : Blank gap)
    (h : Laid l ts text) : Laid l ts (gap ++ text) := by
  cases h with
  | done blank' => exact .done (blank.append blank')
  | token blank' next rest =>
    rw [← List.append_assoc]
    exact .token (blank.append blank') next rest

/-- A token right at the start. -/
theorem Laid.next {text : List Char} {t : Token} {ts : List Token}
    (here : ∀ c ∈ text.head?, l.continues t.lexeme.toList c = false) (h : Laid l ts text) :
    Laid l (t :: ts) (t.lexeme.toList ++ text) := by
  have laid : Laid l (t :: ts) ([] ++ (t.lexeme.toList ++ text)) := .token nofun here h
  rwa [List.nil_append] at laid

/-- A text without characters holds no whole tokens. -/
theorem Laid.eq_nil {text : List Char} {ts : List Token} (whole : ∀ t ∈ ts, l.Whole t)
    (h : Laid l ts text) (empty : text = []) : ts = [] := by
  cases h with
  | done => rfl
  | @token gap rest t ts =>
    have ne := (whole t (List.mem_cons_self ..)).ne_nil
    simp [ne] at empty

/-- Texts can be put together, if what comes second does not go on with the last token of
what comes first. -/
theorem Laid.append {text more : List Char} {ts us : List Token}
    (whole : ∀ t ∈ ts, l.Whole t) (h : Laid l ts text) (h' : Laid l us more)
    (next : ∀ t ∈ ts.getLast?, ∀ c ∈ more.head?, l.continues t.lexeme.toList c = false) :
    Laid l (ts ++ us) (text ++ more) := by
  induction h with
  | done blank => exact h'.after_blank _ blank
  | @token gap text t ts blank here rest ih =>
    have whole' : ∀ t ∈ ts, l.Whole t := fun t mem => whole t (List.mem_cons_of_mem _ mem)
    rw [List.append_assoc, List.append_assoc]
    refine .token blank (fun c first => ?_) (ih whole' fun u last => next u ?_)
    · cases text with
      | nil =>
        obtain rfl := rest.eq_nil whole' rfl
        exact next t (by rfl) c first
      | cons d text => exact here c first
    · rw [List.getLast?_cons, Option.mem_def.1 last]
      rfl

/-- Texts can be put together with blanks between them. -/
theorem Laid.intercalate (gap : List Char) (tidy : l.tidy) (blank : Blank gap) (ne : gap ≠ [])
    {tss : List (List Token)} {texts : List (List Char)} (whole : ∀ ts ∈ tss, ∀ t ∈ ts, l.Whole t)
    (each : List.Forall₂ (Laid l) tss texts) : Laid l tss.flatten (gap.intercalate texts) := by
  obtain ⟨c, gap', rfl⟩ := List.exists_cons_of_ne_nil ne
  induction each with
  | nil => exact .done nofun
  | @cons ts text tss texts first others ih =>
    obtain ⟨wholeFirst, wholeOthers⟩ := List.forall_mem_cons.1 whole
    have inner := ih wholeOthers
    cases texts with
    | nil =>
      cases others
      rw [List.flatten_singleton, List.intercalate_singleton]
      exact first
    | cons other texts =>
      rw [List.flatten_cons, List.intercalate_cons_cons, List.append_assoc]
      refine first.append wholeFirst (inner.after_blank _ blank) fun t last d head => ?_
      obtain rfl := Option.some.inj head
      exact (wholeFirst t (List.mem_of_mem_getLast? last)).not_continues_blank tidy
        (blank.head _ rfl)

/-! ## Cutting the text again -/

/-- Whether a text starts with what is no gap. -/
def Solid (text : List Char) : Prop := ∀ c ∈ text.head?, Text.isBlank c = false ∧ c ≠ '#'

theorem skipRound_solid {place : Place} (solid : Solid place.rest) : l.skipRound place = place := by
  obtain ⟨offset, position, rest⟩ := place
  cases rest with
  | nil =>
    unfold skipRound
    cases l.comments <;> rfl
  | cons c rest =>
    obtain ⟨blank, comment⟩ := solid c rfl
    have noBlank : reachOf .blank .blank (c :: rest) = none := by simp [reachOf, blank]
    have noComment : reachOf (.singleton '#') .anyInLine (c :: rest) = none := by
      simp [reachOf, comment]
    unfold skipRound
    dsimp only
    rw [noBlank, skip]
    dsimp only
    rw [noComment, skip, ite_self]

theorem skipGap_solid {place : Place} (solid : Solid place.rest) (fuel : Nat) :
    l.skipGap fuel place = place := by
  induction fuel with
  | zero => rfl
  | succ fuel ih =>
    unfold skipGap
    dsimp only
    rw [skipRound_solid solid, ih, ite_self]

theorem run_blank {gap rest : List Char} (blank : Blank gap) (solid : Solid rest) :
    run .blank (gap ++ rest) = gap.length := by
  induction gap with
  | nil =>
    cases rest with
    | nil => rfl
    | cons c rest => simp [run, (solid c rfl).1]
  | cons c gap ih =>
    obtain ⟨first, others⟩ := List.forall_mem_cons.1 blank
    simp [run, first, ih others]

/-- A gap is skipped, and nothing else. -/
theorem rest_skipGap {gap rest : List Char} (blank : Blank gap) (solid : Solid rest)
    (fuel offset : Nat) (position : Position) :
    (l.skipGap (fuel + 1) ⟨offset, position, gap ++ rest⟩).rest = rest := by
  have round : (l.skipRound ⟨offset, position, gap ++ rest⟩).rest = rest := by
    cases gap with
    | nil =>
      have solid' : Solid (Place.mk offset position ([] ++ rest)).rest := solid
      rw [skipRound_solid solid']
      rfl
    | cons c gap =>
      obtain ⟨first, others⟩ := List.forall_mem_cons.1 blank
      have reaches : reachOf .blank .blank (c :: gap ++ rest) = some (gap.length + 1) := by
        simp [reachOf, first, run_blank others solid]
      have dropped : (c :: gap ++ rest).drop (gap.length + 1) = rest := by simp
      have noComment : reachOf (.singleton '#') .anyInLine rest = none := by
        cases rest with
        | nil => rfl
        | cons d rest => simp [reachOf, (solid d rfl).2]
      unfold skipRound
      dsimp only
      rw [reaches, skip]
      dsimp only
      rw [dropped, noComment, skip, ite_self]
  unfold skipGap
  dsimp only
  split
  · rw [skipGap_solid (by rw [round]; exact solid), round]
  · exact round

/-- **Tokens that were laid out** are read again. -/
theorem tokensFrom_laid (tidy : l.tidy) {text : List Char} {ts : List Token}
    (whole : ∀ t ∈ ts, l.Whole t) (laid : Laid l ts text) {fuel : Nat} (enough : text.length < fuel)
    (offset : Nat) (position : Position) :
    ∃ us, l.tokensFrom fuel ⟨offset, position, text⟩ = .ok us
      ∧ List.Forall₂ (fun t u => t.agrees u) ts us := by
  obtain ⟨fuel, rfl⟩ := Nat.exists_eq_add_one.2 (Nat.zero_lt_of_lt enough)
  induction laid generalizing fuel offset position with
  | @done gap blank =>
    refine ⟨[], ?_, .nil⟩
    have noRest : Solid [] := nofun
    have rest := rest_skipGap (l := l) blank noRest fuel offset position
    rw [List.append_nil] at rest
    rw [tokensFrom, rest]
  | @token gap text t ts blank here later ih =>
    obtain ⟨isWhole, others⟩ := List.forall_mem_cons.1 whole
    have ne := isWhole.ne_nil
    obtain ⟨c, lexeme, list⟩ := List.exists_cons_of_ne_nil ne
    -- the gap ends where the token starts
    have solid : Solid (t.lexeme.toList ++ text) := by
      intro d first
      rw [list] at first
      exact isWhole.head tidy d (by rw [list]; exact first)
    have rest := rest_skipGap (l := l) blank solid fuel offset position
    have found : l.longest (t.lexeme.toList ++ text) = l.longest t.lexeme.toList :=
      longest_append_of_ends ne here
    obtain ⟨s, longest, agrees⟩ := isWhole
    have taken : (t.lexeme.toList ++ text).take t.lexeme.toList.length = t.lexeme.toList := by simp
    have dropped : (t.lexeme.toList ++ text).drop t.lexeme.toList.length = text := by simp
    rw [tokensFrom]
    generalize l.skipGap (fuel + 1) ⟨offset, position, gap ++ (t.lexeme.toList ++ text)⟩ = place
      at rest ⊢
    have shorter : text.length < fuel := by
      have pos := List.length_pos_iff.2 ne
      simp only [List.length_append] at enough
      omega
    obtain ⟨fuel, rfl⟩ := Nat.exists_eq_add_one.2 (Nat.zero_lt_of_lt shorter)
    obtain ⟨us, further, agree⟩ := ih others (place.offset + t.lexeme.toList.length)
      (place.position.advanceBy t.lexeme.toList) fuel shorter
    refine ⟨tokenOf s.entry place.position t.lexeme.toList :: us, ?_, .cons agrees agree⟩
    simp only [rest, list, List.cons_append]
    rw [← List.cons_append, ← list, found, longest]
    simp only [taken, dropped, further]
    rfl

/-- **A text that holds whole tokens** is cut into these tokens, up to where they stand. -/
theorem tokenize_laid (tidy : l.tidy) {text : List Char} {ts : List Token}
    (whole : ∀ t ∈ ts, l.Whole t) (laid : Laid l ts text) :
    ∃ us, l.tokenize text = .ok us ∧ List.Forall₂ (fun t u => t.agrees u) ts us :=
  tokensFrom_laid tidy whole laid (Nat.lt_succ_self _) 0 .start

end Polyglot.Lexicon
