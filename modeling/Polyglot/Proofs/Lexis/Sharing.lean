import Polyglot.Proofs.Lexis.Spelling

/-!
# Sources for two lexicons

A source that was cut with one lexicon holds the same tokens for another one, if this one has
nothing that goes on where a token of the first one ends (`laid_of_tokenize`). That they are the
same tokens there is another question, of each token and not of where it stands.

A word or a number ends because what comes next is no part of it (`run_stop`).
-/

namespace Polyglot.Lexicon

open Regex Vocabulary Regex.Program

variable {l l' : Lexicon} {text : List Char}

/-! ## Gaps without comments -/

theorem take_run (set : CharSet) (text : List Char) :
    ∀ c ∈ text.take (run set text), set.contains c := by
  induction text with
  | nil => exact List.forall_mem_nil _
  | cons c text ih =>
    by_cases mem : set.contains c
    · rw [run, if_pos mem, List.take_succ_cons]
      exact List.forall_mem_cons.2 ⟨mem, ih⟩
    · rw [run, if_neg mem, List.take_zero]
      exact List.forall_mem_nil _

theorem blank_take {n : Nat} (reaches : reachOf .blank .blank text = some n) :
    Blank (text.take n) := by
  cases text with
  | nil => cases reaches
  | cons c text =>
    rw [reachOf] at reaches
    split at reaches
    · rename_i first
      obtain rfl := Option.some.inj reaches
      rw [List.take_succ_cons]
      exact List.forall_mem_cons.2 ⟨first, take_run .blank text⟩
    · cases reaches

/-- Without comments what is skipped are blanks. -/
theorem exists_gap (plain : l.comments = false) (fuel : Nat) (place : Place) :
    ∃ gap, Blank gap ∧ place.rest = gap ++ (l.skipGap fuel place).rest := by
  induction fuel generalizing place with
  | zero => exact ⟨[], List.forall_mem_nil _, rfl⟩
  | succ fuel ih =>
    have round : ∃ gap, Blank gap ∧ place.rest = gap ++ (l.skipRound place).rest := by
      rw [skipRound, plain, if_neg Bool.false_ne_true]
      cases reaches : reachOf .blank .blank place.rest with
      | none => exact ⟨[], List.forall_mem_nil _, rfl⟩
      | some n => exact ⟨_, blank_take reaches, (List.take_append_drop n place.rest).symm⟩
    obtain ⟨gap, blank, eq⟩ := round
    rw [skipGap]
    split
    · obtain ⟨gap', blank', eq'⟩ := ih (l.skipRound place)
      exact ⟨gap ++ gap', blank.append blank', by rw [eq, eq', List.append_assoc]⟩
    · exact ⟨gap, blank, eq⟩

/-! ## Tokens -/

/-- Whether the matches of one lexicon end where another one has nothing that goes on. -/
def EndsFor (l l' : Lexicon) : Prop :=
  ∀ text s n, l.longest text = some (s, n) →
    ∀ c ∈ (text.drop n).head?, l'.continues (text.take n) c = false

theorem laid_of_tokensFrom (plain : l.comments = false) (ends : l.EndsFor l') {fuel : Nat}
    {place : Place} {ts : List Token} (enough : place.rest.length < fuel)
    (cut : l.tokensFrom fuel place = .ok ts) : Laid l' ts place.rest := by
  induction fuel generalizing place ts with
  | zero => exact absurd enough (Nat.not_lt_zero _)
  | succ fuel ih =>
    obtain ⟨gap, blank, eq⟩ := exists_gap plain (fuel + 1) place
    rw [tokensFrom] at cut
    generalize l.skipGap (fuel + 1) place = here at cut eq
    rw [eq] at enough ⊢
    dsimp only at cut
    split at cut
    · rename_i none
      obtain rfl := Except.ok.inj cut
      rw [none, List.append_nil]
      exact .done blank
    · split at cut
      · cases cut
      · rename_i s n found
        obtain ⟨more, later, same⟩ := Except.bind_eq_ok.1 cut
        obtain rfl := Except.ok.inj same
        -- a match takes a character, so what is left needs less
        have pos := ((best_longest l here.rest).mem s n found).2.2
        have shorter : (here.rest.drop n).length < fuel := by
          have le := (longest_take found).1
          rw [List.length_append] at enough
          rw [List.length_drop]
          omega
        have lexeme : (tokenOf s.entry here.position (here.rest.take n)).lexeme.toList
            = here.rest.take n := String.toList_ofList
        have token : Laid l' (tokenOf s.entry here.position (here.rest.take n) :: more)
            (gap ++ (_ ++ here.rest.drop n)) :=
          .token blank (fun c next => by rw [lexeme]; exact ends _ s n found c next) (ih shorter later)
        rwa [lexeme, List.take_append_drop] at token

/-- **A source that one lexicon cuts** holds the tokens for another one, if they end for this one
too. -/
theorem laid_of_tokenize (plain : l.comments = false) (ends : l.EndsFor l') {ts : List Token}
    (cut : l.tokenize text = .ok ts) : Laid l' ts text := by
  rw [tokenize] at cut
  exact laid_of_tokensFrom plain ends (Nat.lt_succ_self _) cut

/-! ## Where words and numbers end -/

/-- A run ends because of what comes next. -/
theorem run_stop {set : CharSet} {c : Char} {rest : List Char}
    (whole : run set (text ++ c :: rest) = text.length) : set.contains c = false := by
  induction text with
  | nil =>
    refine Bool.eq_false_iff.2 fun mem => ?_
    rw [List.nil_append, run, if_pos mem] at whole
    cases whole
  | cons d text ih =>
    rw [List.cons_append, run] at whole
    split at whole
    · exact ih (Nat.succ.inj whole)
    · cases whole

theorem reachOf_stop {first others : CharSet} {n : Nat} (reaches : reachOf first others text = some n) :
    ∀ c ∈ (text.drop n).head?, others.contains c = false := by
  cases text with
  | nil => cases reaches
  | cons d text =>
    rw [reachOf] at reaches
    split at reaches
    · obtain rfl := Option.some.inj reaches
      intro c next
      obtain ⟨rest, list⟩ := List.head?_eq_some_iff.1 next
      rw [List.drop_succ_cons] at list
      have whole : run others (text.take (run others text) ++ c :: rest)
          = (text.take (run others text)).length := by
        rw [← list, List.take_append_drop, List.length_take_of_le (run_le others text)]
      exact run_stop whole
    · cases reaches

/-- What goes on with a text starts like it. -/
theorem Shape.starts_of_continues {s : Shape} {c d : Char} {rest : List Char}
    (goesOn : s.continues (d :: rest) c) : s.starts d := by
  cases s with
  | exact whole =>
    obtain ⟨more, list⟩ := List.isPrefixOf_iff_prefix.1 goesOn
    show (whole.toList.head? == some d) = true
    rw [← list]
    exact beq_self_eq_true _
  | identifier | integer =>
    exact Shape.starts_of_reach? (beq_iff_eq.1 (Bool.and_eq_true_iff.1 goesOn).1) (Nat.succ_ne_zero _)
  | string | regex => exact beq_iff_eq.2 (Option.some.inj (beq_iff_eq.1 (Bool.and_eq_true_iff.1 goesOn).1))

/-- Nothing but a digit goes on with digits. -/
theorem not_continues_of_digits (only : l.digitsAlone) {c d : Char} {rest : List Char}
    (isDigit : digits.contains d) (stop : digits.contains c = false) :
    l.continues (d :: rest) c = false := by
  refine Bool.eq_false_iff.2 fun goesOn => ?_
  obtain ⟨s, mem, goesOn⟩ := List.any_eq_true.1 goesOn
  obtain rfl := eq_integer_of_starts only isDigit mem (Shape.starts_of_continues goesOn)
  have isDigit := (Bool.and_eq_true_iff.1 goesOn).2
  rw [stop] at isDigit
  cases isDigit

/-- Nothing but a part of a word goes on with a word, if the keywords are words. -/
theorem not_continues_of_word (only : l.keywords.all fun word => word.toList.all wordParts.contains)
    {c d : Char} {rest : List Char} (initial : initials.contains d)
    (stop : wordParts.contains c = false) : l.continues (d :: rest) c = false := by
  refine Bool.eq_false_iff.2 fun goesOn => ?_
  obtain ⟨s, mem, goesOn⟩ := List.any_eq_true.1 goesOn
  have starts := Shape.starts_of_continues goesOn
  -- a mark around a text starts no word
  have differs (mark : Char) (no : initials.contains mark = false) : d ≠ mark := by
    rintro rfl
    rw [no] at initial
    cases initial
  have never : wordParts.contains c → False := fun part => by
    rw [stop] at part
    cases part
  cases s with
  | exact whole =>
    obtain ⟨more, list⟩ := List.isPrefixOf_iff_prefix.1 goesOn
    have keyword : whole ∈ l.keywords := by
      refine List.mem_filterMap.2 ⟨_, mem, ?_⟩
      dsimp only
      rw [← list, if_pos (by simpa using initial)]
    refine never (List.all_eq_true.1 (List.all_eq_true.1 only whole keyword) c ?_)
    rw [← list]
    simp
  | identifier => exact never (Bool.and_eq_true_iff.1 goesOn).2
  | integer => exact not_initials_of_digits starts initial
  | string => exact differs '"' (by decide) (beq_iff_eq.1 starts)
  | regex => exact differs '/' (by decide) (beq_iff_eq.1 starts)

/-! ## Whole tokens -/

/-- A whole token is one of a shape that matches all of its text. -/
theorem Whole.exists_token {t : Token} (h : l.Whole t) :
    ∃ s ∈ l.shapes, t.agrees (s.token t.lexeme)
      ∧ s.reach? t.lexeme.toList = some t.lexeme.toList.length := by
  obtain ⟨s, longest, agrees⟩ := h
  obtain ⟨mem, reaches, -⟩ := (best_longest l t.lexeme.toList).mem _ _ longest
  exact ⟨s, mem, by simpa [tokenOf, Token.agrees] using agrees, reaches⟩

/-- A token that is whole for one lexicon is so for another one that finds the same in its text. -/
theorem Whole.share {t : Token} (h : l.Whole t)
    (found : ∀ s ∈ l.shapes, t.agrees (s.token t.lexeme) →
      s.reach? t.lexeme.toList = some t.lexeme.toList.length →
      l'.longest t.lexeme.toList = some (s, t.lexeme.toList.length)) : l'.Whole t := by
  obtain ⟨s, mem, agrees, reaches⟩ := h.exists_token
  exact ⟨s, found s mem agrees reaches, by simpa [tokenOf, Token.agrees] using agrees⟩

end Polyglot.Lexicon
