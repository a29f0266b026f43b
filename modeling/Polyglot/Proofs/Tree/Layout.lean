import Polyglot.Proofs.Lexis.Printing
import Polyglot.Proofs.Parsing.Derivation
import Polyglot.Tree.Layout
import Polyglot.Tree.Shake
import Mathlib.Data.List.Chain

/-!
# What a layout prints

A layout prints tokens with blanks between them (`Layout.output_push`). So what it prints
holds the tokens, as long as no token that is printed without a blank goes on with the one
before (`Layout.Parts`, `Layout.laid_printTokens`).
-/

namespace Polyglot.Layout

open Polyglot.Lexicon (Blank Laid)

variable {y : Layout} {l : Lexicon}

/-- Whether two tokens can be told apart in print. -/
def Parts (y : Layout) (l : Lexicon) (t u : Token) : Prop :=
  y.spaceBetween t u = false → ∀ c ∈ u.lexeme.toList.head?, l.continues t.lexeme.toList c = false

/-- One step of indentation after the other is blank. -/
theorem blank_indent (blank : Blank y.indentUnit.toList) (n : Nat) :
    Blank (String.join (List.replicate n y.indentUnit)).toList := by
  induction n with
  | zero => nofun
  | succ n ih =>
    rw [List.replicate_succ, String.join_cons, String.toList_append]
    exact blank.append ih

/-- What is printed between two tokens: blanks, and at least one if a space stands between
them. -/
theorem output_separate (pen : Pen) (t : Token) :
    ∃ gap, (y.separate pen t).output.toList = pen.output.toList ++ gap ∧ Blank gap
      ∧ (gap = [] → ∀ last ∈ pen.last, y.spaceBetween last t = false) := by
  have blank {c : Char} (h : Text.isBlank c) : Blank [c] := by simpa [Blank] using h
  have feed : pen.newline.output.toList = pen.output.toList ++ ['\n'] := String.toList_push ..
  unfold separate
  split
  · exact ⟨[], by simp, nofun, fun _ => by simp [*]⟩
  rename_i last found
  split
  · exact ⟨['\n'], feed, blank (by decide), nofun⟩
  split
  · split
    · exact ⟨['\n'], feed, blank (by decide), nofun⟩
    · exact ⟨[' '], String.toList_push .., blank (by decide), nofun⟩
  · rename_i noSpace
    exact ⟨[], by simp, nofun, fun _ => by simpa [found] using noSpace⟩

/-- **What is printed for a token**: blanks, and the token. -/
theorem output_push (blank : Blank y.indentUnit.toList) (pen : Pen) {t : Token}
    (solid : t.isEmpty = false) :
    ∃ gap, (y.push pen t).output.toList = pen.output.toList ++ (gap ++ t.lexeme.toList)
      ∧ Blank gap ∧ (gap = [] → ∀ last ∈ pen.last, y.spaceBetween last t = false)
      ∧ (y.push pen t).last = some t := by
  unfold push
  rw [solid, if_neg Bool.false_ne_true]
  generalize same : (if y.dedentBefore t then { pen with indent := pen.indent - 1 } else pen)
    = pen'
  have output : pen'.output = pen.output := by rw [← same]; split <;> rfl
  have last : pen'.last = pen.last := by rw [← same]; split <;> rfl
  obtain ⟨gap, eq, blankGap, space⟩ := output_separate (y := y) pen' t
  have indented : ∃ gap', (y.indentLine (y.separate pen' t)).output.toList
      = (y.separate pen' t).output.toList ++ gap' ∧ Blank gap' := by
    unfold indentLine
    split
    · exact ⟨_, String.toList_append .., blank_indent blank _⟩
    · exact ⟨[], by simp, nofun⟩
  obtain ⟨gap', eq', blankGap'⟩ := indented
  refine ⟨gap ++ gap', ?_, blankGap.append blankGap', fun empty => ?_, rfl⟩
  · dsimp only
    rw [String.toList_append, eq', eq, output]
    simp
  · rw [← last]
    exact space (List.append_eq_nil_iff.1 empty).1

/-- A token without a text is not printed. -/
theorem push_empty (pen : Pen) {t : Token} (empty : t.isEmpty) : y.push pen t = pen := by
  rw [push, if_pos empty]

/-- A tree is printed as its tokens with a text. -/
theorem print_eq (y : Layout) (t : Tree) : y.print t = y.printTokens t.solidTokens := by
  have fold (ts : List Token) (pen : Pen) :
      ts.foldl y.push pen = (ts.filter fun t => !t.isEmpty).foldl y.push pen := by
    induction ts generalizing pen with
    | nil => rfl
    | cons t ts ih =>
      rw [List.foldl_cons, List.filter_cons]
      split
      · exact ih _
      · rename_i empty
        rw [push_empty pen (by simpa using empty)]
        exact ih pen
  rw [print, printTokens, fold]
  rfl

/-- **What a layout prints** holds the tokens. -/
theorem laid_printTokens (tidy : l.tidy) (blank : Blank y.indentUnit.toList) {ts : List Token}
    (whole : ∀ t ∈ ts, l.Whole t) (parts : ts.IsChain (y.Parts l)) :
    Laid l ts (y.printTokens ts).toList := by
  have fold (done ts : List Token) (pen : Pen) (whole : ∀ t ∈ done ++ ts, l.Whole t)
      (parts : (done ++ ts).IsChain (y.Parts l)) (laid : Laid l done pen.output.toList)
      (last : pen.last = done.getLast?) :
      Laid l (done ++ ts) (ts.foldl y.push pen).output.toList := by
    induction ts generalizing done pen with
    | nil => rwa [List.append_nil]
    | cons t ts ih =>
      obtain ⟨wholeDone, wholeRest⟩ := List.forall_mem_append.1 whole
      obtain ⟨isWhole, -⟩ := List.forall_mem_cons.1 wholeRest
      obtain ⟨gap, output, blankGap, space, last'⟩ := output_push blank pen isWhole.isEmpty
      have apart := (List.isChain_append.1 parts).2.2
      rw [List.append_cons] at whole parts ⊢
      refine ih _ _ whole parts ?_ (by rw [last', List.getLast?_concat])
      rw [output, ← List.append_nil t.lexeme.toList]
      refine laid.append wholeDone (.token blankGap nofun (.done nofun)) fun u mem c first => ?_
      rw [List.append_nil, List.head?_append] at first
      cases gap with
      | cons d gap =>
        obtain rfl := Option.some.inj first
        exact (wholeDone u (List.mem_of_mem_getLast? mem)).not_continues_blank tidy
          (blankGap.head _ rfl)
      | nil =>
        refine apart u mem t rfl (space rfl u ?_) c first
        rw [last]
        exact mem
  exact fold [] ts {} whole parts (.done nofun) rfl

/-- What a layout prints holds the tokens, if any two of them can be told apart. -/
theorem laid_printTokens_of_parts (tidy : l.tidy) (blank : Blank y.indentUnit.toList)
    {ts : List Token} (whole : ∀ t ∈ ts, l.Whole t)
    (parts : ∀ t u, l.Whole t → l.Whole u → y.Parts l t u) :
    Laid l ts (y.printTokens ts).toList :=
  laid_printTokens tidy blank whole <| List.Pairwise.isChain <|
    List.pairwise_of_forall_mem_list fun t mem u mem' => parts t u (whole t mem) (whole u mem')

/-- Two tokens can be told apart in print if no space stands between them only after some
texts that nothing goes on with, and before some texts that go on with nothing. -/
theorem parts_of_texts (lefts rights : List String) {t u : Token} (tidy : l.tidy) (whole : l.Whole t)
    (closed : lefts.all fun x => l.isClosed x.toList)
    (opening : rights.all fun x => x.toList.head?.all l.isOpening)
    (space : y.spaceBetween t u = false → t.lexeme ∈ lefts ∨ u.lexeme ∈ rights) :
    y.Parts l t u := by
  intro noSpace c first
  rcases space noSpace with mem | mem
  · exact Lexicon.not_continues_of_isClosed (List.all_eq_true.1 closed _ mem) c
  · have opens := List.all_eq_true.1 opening _ mem
    rw [Option.mem_def.1 first] at opens
    exact whole.not_continues_of_isOpening tidy opens

end Polyglot.Layout

namespace Polyglot.Tree

theorem solidTokens_node (name : String) (label : Option String) (choice : Option Nat)
    (children : List Tree) :
    (node name label choice children).solidTokens = children.flatMap solidTokens := by
  rw [solidTokens, tokens_node, List.filter_flatMap]
  rfl

end Polyglot.Tree
