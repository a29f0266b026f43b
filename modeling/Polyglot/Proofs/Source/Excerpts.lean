import Mathlib.Data.List.Induction
import Mathlib.Data.List.Infix
import Mathlib.Data.List.TakeWhile
import Polyglot.Proofs.Lexis.Accounting
import Polyglot.Source.Excerpt

/-!
# What can be cut out of a source

Positions are counted in characters along the source, and an excerpt is looked for in the lines that the
source is split into, without the carriage returns at their ends. The two agree on where the lines start
(`getElem?_splitLines`), but a position among the carriage returns at the end of a line is to the right of all
that there is to show. So a position can be shown if the character there, or the one before it,
is something else (`shown_of_visible`, `shown_after`), and then the excerpt at a stretch of characters on one line is that
stretch (`exists_cut`).
-/

namespace Polyglot.Source

open Polyglot.Text

/-! ## Lines -/

/-- The characters since the last line feed of a text. -/
def lineEnd (before : List Char) : List Char := (before.reverse.takeWhile (· ≠ '\n')).reverse

/-- The characters up to the first line feed of a text. -/
def lineStart (rest : List Char) : List Char := rest.takeWhile (· ≠ '\n')

theorem Position.column_after (before : List Char) : (Position.after before).column = (lineEnd before).length + 1 := by
  rw [lineEnd, List.length_reverse, after]

theorem splitLines_cons {c : Char} (ne : c ≠ '\n') (cs : List Char) :
    ∃ line rest, splitLines cs = line :: rest ∧ splitLines (c :: cs) = (c :: line) :: rest := by
  obtain ⟨line, rest, eq⟩ := List.exists_cons_of_ne_nil (splitLines_ne_nil cs)
  refine ⟨line, rest, eq, ?_⟩
  rw [splitLines, if_neg ne, eq]

theorem head?_splitLines (rest : List Char) : (splitLines rest)[0]? = some (lineStart rest) := by
  induction rest with
  | nil => rfl
  | cons c cs ih =>
    by_cases feed : c = '\n'
    · simp [splitLines, lineStart, feed]
    · obtain ⟨line, rest, eq, eq'⟩ := splitLines_cons feed cs
      rw [eq] at ih
      obtain rfl := Option.some.inj ih
      rw [eq']
      simp [lineStart, feed]

theorem splitLines_append_feed (before rest : List Char) :
    splitLines (before ++ '\n' :: rest) = splitLines before ++ splitLines rest := by
  induction before with
  | nil => rfl
  | cons c cs ih =>
    by_cases feed : c = '\n'
    · simp [splitLines, feed, ih]
    · obtain ⟨line, lines, split, eq⟩ := splitLines_cons feed cs
      obtain ⟨line', lines', split', eq'⟩ := splitLines_cons feed (cs ++ '\n' :: rest)
      rw [ih, split, List.cons_append] at split'
      obtain ⟨rfl, rfl⟩ := List.cons_eq_cons.1 split'
      rw [List.cons_append, eq', eq, List.cons_append]

theorem length_splitLines (cs : List Char) : (splitLines cs).length = cs.count '\n' + 1 := by
  induction cs with
  | nil => rfl
  | cons c cs ih =>
    by_cases feed : c = '\n'
    · simp [splitLines, feed, ih]
    · obtain ⟨line, rest, split, eq⟩ := splitLines_cons feed cs
      rw [eq, List.count_cons_of_ne feed, ← ih, split, List.length_cons, List.length_cons]

/-- **The line of a character** is what stands before it since the last line feed, and what comes up to the
next. -/
theorem getElem?_splitLines (before rest : List Char) :
    (splitLines (before ++ rest))[before.count '\n']? = some (lineEnd before ++ lineStart rest) := by
  -- on what comes before: a line feed at the end of it starts the line, anything else is on it
  induction before using List.reverseRecOn generalizing rest with
  | nil => exact head?_splitLines rest
  | append_singleton before c ih =>
    rw [List.append_assoc, List.singleton_append]
    by_cases feed : c = '\n'
    · have ended : lineEnd (before ++ ['\n']) = [] := by simp [lineEnd]
      have next : (before ++ ['\n']).count '\n' = (splitLines before).length := by
        rw [length_splitLines, List.count_append, List.count_singleton_self]
      rw [feed, ended, next, splitLines_append_feed, List.getElem?_append_right (Nat.le_refl _), Nat.sub_self]
      exact head?_splitLines rest
    · have longer : lineEnd (before ++ [c]) = lineEnd before ++ [c] := by simp [lineEnd, feed]
      have start : lineStart (c :: rest) = c :: lineStart rest := by simp [lineStart, feed]
      have same : (before ++ [c]).count '\n' = before.count '\n' := by simp [feed]
      rw [longer, same, ih, start, List.append_assoc, List.singleton_append]

theorem takeWhile_inLine {text : List Char} (inLine : '\n' ∉ text) (rest : List Char) :
    (text ++ rest).takeWhile (· ≠ '\n') = text ++ rest.takeWhile (· ≠ '\n') := by
  refine List.takeWhile_append_of_pos fun c mem => ?_
  rw [decide_eq_true_eq]
  rintro rfl
  exact inLine mem

/-- Characters without a line feed are on the line that they stand on. -/
theorem lineEnd_append (before : List Char) {text : List Char} (inLine : '\n' ∉ text) :
    lineEnd (before ++ text) = lineEnd before ++ text := by
  rw [lineEnd, List.reverse_append, takeWhile_inLine (by rwa [List.mem_reverse]), List.reverse_append,
    List.reverse_reverse, lineEnd]

theorem lineStart_append {text : List Char} (inLine : '\n' ∉ text) (rest : List Char) :
    lineStart (text ++ rest) = text ++ lineStart rest :=
  takeWhile_inLine inLine rest

namespace Excerpt

/-- Carriage returns are dropped from the end only. -/
theorem dropReturns_append {before rest : List Char} (kept : dropReturns before = before ∨ dropReturns rest ≠ []) :
    dropReturns (before ++ rest) = before ++ dropReturns rest := by
  unfold dropReturns at kept ⊢
  rw [List.reverse_append, List.dropWhile_append]
  split
  -- there is nothing but carriage returns behind
  · rename_i none
    have none := List.isEmpty_iff.1 none
    obtain kept | some := kept
    · rw [kept, none, List.reverse_nil, List.append_nil]
    · exact absurd (congrArg List.reverse none) some
  · rw [List.reverse_append, List.reverse_reverse]

theorem dropReturns_eq_self {text : List Char} (visible : text.getLast? ≠ some '\r') : dropReturns text = text := by
  unfold dropReturns
  cases reversed : text.reverse with
  | nil => rw [List.reverse_eq_nil_iff.1 reversed]; rfl
  | cons c rest =>
    have ne : c ≠ '\r' := by
      rintro rfl
      rw [← List.head?_reverse, reversed] at visible
      exact visible rfl
    rw [List.dropWhile_cons_of_neg (by simpa using ne), ← reversed, List.reverse_reverse]

/-- A character that is no carriage return stays. -/
theorem dropReturns_ne_nil {text : List Char} {c : Char} (mem : c ∈ text) (ne : c ≠ '\r') : dropReturns text ≠ [] := by
  unfold dropReturns
  rw [Ne, List.reverse_eq_nil_iff, List.dropWhile_eq_nil_iff]
  exact fun all => ne (beq_iff_eq.1 (all c (List.mem_reverse.2 mem)))

end Excerpt

/-! ## Showing positions -/

/-- Whether a position can be shown in a source, wherever a span that starts there ends. -/
def Shown (content : String) (p : Position) : Prop :=
  ∀ file last, ∃ e, Excerpt.cut file content ⟨p, last⟩ = .ok e

section

variable {content : String} {before rest text : List Char} {c : Char}

/-- A position can be shown if it is not among the carriage returns at the end of its line. -/
theorem shown_of_kept (cut : content.toList = before ++ rest)
    (kept : Excerpt.dropReturns (lineEnd before ++ lineStart rest)
      = lineEnd before ++ Excerpt.dropReturns (lineStart rest)) : Shown content (.after before) := by
  intro file last
  have line : (splitLines content.toList)[(Position.after before).line - 1]?
      = some (lineEnd before ++ lineStart rest) := cut ▸ getElem?_splitLines before rest
  have inside : ¬ (Position.after before).column
      > (Excerpt.dropReturns (lineEnd before ++ lineStart rest)).length + 1 := by
    rw [Position.column_after, kept, List.length_append]
    omega
  unfold Excerpt.cut
  simp only [line, if_neg inside]
  exact ⟨_, if_neg (Nat.succ_ne_zero _)⟩

/-- **A character can be shown** unless it is a line feed or a carriage return. -/
theorem shown_of_visible (cut : content.toList = before ++ c :: rest) (feed : c ≠ '\n') (ret : c ≠ '\r') :
    Shown content (.after before) := by
  refine shown_of_kept cut (Excerpt.dropReturns_append (.inr (Excerpt.dropReturns_ne_nil (c := c) ?_ ret)))
  rw [lineStart, List.takeWhile_cons_of_pos (by simpa using feed)]
  exact List.mem_cons_self

/-- **The end of a text can be shown** unless the text ends with a carriage return. -/
theorem shown_after (cut : content.toList = before ++ rest) (ret : before.getLast? ≠ some '\r') :
    Shown content (.after before) := by
  refine shown_of_kept cut (Excerpt.dropReturns_append (.inl (Excerpt.dropReturns_eq_self fun last => ret ?_)))
  rw [lineEnd, List.getLast?_reverse, List.head?_takeWhile, List.head?_reverse, Option.filter_eq_some_iff] at last
  exact last.1

/-- The end of the line can be shown, and the carriage returns before it cannot. -/
example : (Excerpt.cut "f" "a\r\r\nb" (.ofPosition ⟨1, 2⟩)).toOption.isSome
    ∧ Excerpt.cut "f" "a\r\r\nb" (.ofPosition ⟨1, 3⟩) = .error (.afterLine 1) := by
  decide

/-- **The excerpt at a text** that stands on one line is that text. -/
theorem exists_cut (file : String) (cut : content.toList = before ++ (text ++ rest)) (ne : text ≠ [])
    (inLine : '\n' ∉ text) (ret : text.getLast? ≠ some '\r') :
    ∃ e, Excerpt.cut file content ⟨.after before, .after (before ++ text.dropLast)⟩ = .ok e
      ∧ e.text = String.ofList text := by
  have inLine' : '\n' ∉ text.dropLast := fun mem => inLine (List.mem_of_mem_dropLast mem)
  have line : (splitLines content.toList)[(Position.after before).line - 1]?
      = some (lineEnd before ++ (text ++ lineStart rest)) := by
    rw [cut, ← lineStart_append inLine]
    exact getElem?_splitLines before (text ++ rest)
  -- what is dropped from the line stands behind the text
  have ends : (lineEnd before ++ text).getLast? ≠ some '\r' := by
    rwa [List.getLast?_append_of_ne_nil _ ne]
  have kept : Excerpt.dropReturns (lineEnd before ++ (text ++ lineStart rest))
      = lineEnd before ++ text ++ Excerpt.dropReturns (lineStart rest) := by
    rw [← List.append_assoc]
    exact Excerpt.dropReturns_append (.inl (Excerpt.dropReturns_eq_self ends))
  have same : (Position.after (before ++ text.dropLast)).line = (Position.after before).line := by
    simp [Position.after, List.count_eq_zero_of_not_mem inLine']
  have column : (Position.after (before ++ text.dropLast)).column = (lineEnd before).length + text.length := by
    have := List.length_pos_iff.2 ne
    rw [Position.column_after, lineEnd_append before inLine', List.length_append, List.length_dropLast]
    omega
  have width : (lineEnd before ++ text ++ Excerpt.dropReturns (lineStart rest)).length
      = (lineEnd before).length + text.length + (Excerpt.dropReturns (lineStart rest)).length := by
    rw [List.length_append, List.length_append]
  unfold Excerpt.cut
  simp only [line, kept, same, column, Position.column_after, width, if_true]
  refine ⟨_, (if_neg (Nat.succ_ne_zero _)).trans (if_neg (by omega)), ?_⟩
  have length : min ((lineEnd before).length + text.length)
        ((lineEnd before).length + text.length + (Excerpt.dropReturns (lineStart rest)).length) + 1
      - ((lineEnd before).length + 1) = text.length := by
    omega
  rw [Excerpt.text]
  simp only [length, String.toList_ofList, Nat.add_sub_cancel]
  rw [List.append_assoc, List.drop_left', List.take_left'] <;> rfl

end

end Polyglot.Source
