import Polyglot.Proofs.Lexis.Sharing
import Polyglot.Proofs.Source.Excerpts

/-!
# Tokens can be shown

The tokens of the lexicons that there are stand on one line each, and start and end with something that is
no carriage return (`Lexicon.onLines`). So each of them is the excerpt at its span, its first character and the end of it
can be shown (`Lexicon.Stands`), and so can the character at which cutting fails, since it is no
blank (`Lexicon.shown_of_error`).
-/

namespace Polyglot

open Polyglot.Source

/-! ## Texts on a line -/

/-- Whether a text stands on one line, without a carriage return at either end. -/
structure OnLine (text : List Char) : Prop where
  /-- It has no line feed. -/
  inLine : '\n' ∉ text
  /-- It does not start with a carriage return. -/
  head : text.head? ≠ some '\r'
  /-- It does not end with one. -/
  last : text.getLast? ≠ some '\r'

/-- A text of characters none of which is a line feed or a carriage return. -/
theorem OnLine.of_forall {text : List Char} {p : Char → Bool} (feed : p '\n' = false) (ret : p '\r' = false)
    (all : ∀ c ∈ text, p c) : OnLine text where
  inLine mem := by
    have := all _ mem
    rw [feed] at this
    cases this
  head first := by
    have := all _ (List.mem_of_mem_head? first)
    rw [ret] at this
    cases this
  last last := by
    have := all _ (List.mem_of_mem_getLast? last)
    rw [ret] at this
    cases this

namespace Regex.Program

variable {text : List Char} {n : Nat} {mark : Char}

/-- A text up to a mark that closes it is on one line, and ends with the mark. -/
theorem closing_take {bar : Bool} (closes : closing mark bar text = some n) (ne : mark ≠ '\n') :
    '\n' ∉ text.take n ∧ (text.take n).getLast? = some mark := by
  induction text generalizing bar n with
  | nil => cases bar <;> cases closes
  | cons c rest ih =>
    -- one character more, which is no line feed
    have more {bar : Bool} {m : Nat} (feed : c ≠ '\n') (closes : closing mark bar rest = some m) :
        '\n' ∉ (c :: rest).take (m + 1) ∧ ((c :: rest).take (m + 1)).getLast? = some mark := by
      obtain ⟨inLine, last⟩ := ih closes
      rw [List.take_succ_cons, List.getLast?_cons, last]
      exact ⟨List.not_mem_cons_of_ne_of_not_mem feed.symm inLine, rfl⟩
    cases bar with
    | true =>
      rw [closing] at closes
      split at closes
      · cases closes
      · rename_i feed
        obtain ⟨m, found, rfl⟩ := Option.map_eq_some_iff.1 closes
        exact more feed found
    | false =>
      rw [closing] at closes
      split at closes
      · rename_i isMark
        obtain rfl := Option.some.inj closes
        rw [isMark]
        exact ⟨List.not_mem_cons_of_ne_of_not_mem ne.symm List.not_mem_nil, rfl⟩
      · split at closes
        · cases closes
        · rename_i feed
          obtain ⟨m, found, rfl⟩ := Option.map_eq_some_iff.1 closes
          exact more feed found

theorem onLine_reachOf {first others : CharSet} (reaches : reachOf first others text = some n)
    (sub : ∀ c, first.contains c → others.contains c) (feed : others.contains '\n' = false)
    (ret : others.contains '\r' = false) : OnLine (text.take n) := by
  cases text with
  | nil => cases reaches
  | cons c rest =>
    rw [reachOf] at reaches
    split at reaches
    · rename_i mem
      obtain rfl := Option.some.inj reaches
      rw [List.take_succ_cons]
      exact .of_forall feed ret (List.forall_mem_cons.2 ⟨sub c mem, Lexicon.take_run others rest⟩)
    · cases reaches

theorem onLine_reachBetween (reaches : reachBetween mark text = some n) (feed : mark ≠ '\n') (ret : mark ≠ '\r') :
    OnLine (text.take n) := by
  cases text with
  | nil => cases reaches
  | cons c rest =>
    rw [reachBetween] at reaches
    split at reaches
    · rename_i isMark
      obtain ⟨m, closes, rfl⟩ := Option.map_eq_some_iff.1 reaches
      obtain ⟨inLine, last⟩ := closing_take closes feed
      rw [isMark, List.take_succ_cons]
      refine ⟨List.not_mem_cons_of_ne_of_not_mem feed.symm inLine, fun eq => ret (Option.some.inj eq), fun eq => ?_⟩
      rw [List.getLast?_cons, last] at eq
      exact ret (Option.some.inj eq)
    · cases reaches

end Regex.Program

namespace Lexicon

open Regex.Program Vocabulary

/-- Whether the matches of a shape are on one line. -/
def Shape.onLine : Shape → Bool
  | exact whole => whole.toList.all fun c => c != '\n' && c != '\r'
  | _ => true

/-- Whether all tokens are on one line. -/
def onLines (l : Lexicon) : Bool := l.shapes.all Shape.onLine

/-- **The matches of a shape** are on one line. -/
theorem Shape.onLine_take {s : Shape} (onLine : s.onLine) {text : List Char} {n : Nat} (reaches : s.reach? text = some n) :
    OnLine (text.take n) := by
  cases s with
  | exact whole =>
    rw [reach?, reachExactly] at reaches
    split at reaches
    · rename_i isPrefix
      obtain rfl := Option.some.inj reaches
      obtain ⟨rest, rfl⟩ := List.isPrefixOf_iff_prefix.1 isPrefix
      rw [List.take_left']
      · exact .of_forall (p := fun c => c != '\n' && c != '\r') rfl rfl (List.all_eq_true.1 onLine)
      · rfl
    · cases reaches
  | identifier => exact onLine_reachOf reaches (fun _ => wordParts_of_initials) rfl rfl
  | integer => exact onLine_reachOf reaches (fun _ => id) rfl rfl
  | string => exact onLine_reachBetween reaches (by decide) (by decide)
  | regex => exact onLine_reachBetween reaches (by decide) (by decide)

/-- A lexeme is on one line. -/
theorem onLine_of_isLexeme {l : Lexicon} (onLines : l.onLines) {entry : Entry} {lexeme rest : List Char}
    (isLexeme : l.vocabulary.IsLexeme entry lexeme rest) : OnLine lexeme := by
  obtain ⟨mem, takes⟩ : entry ∈ l.vocabulary.entries ∧ entry.matcher.Takes lexeme rest := by
    obtain found | ⟨-, found⟩ := Option.or_eq_some_iff.1 isLexeme.chosen
    · have takes := List.find?_some found
      rw [Bool.and_eq_true, decide_eq_true_eq] at takes
      exact ⟨List.mem_of_find?_eq_some found, takes.2⟩
    · have takes := List.find?_some found
      rw [decide_eq_true_eq] at takes
      exact ⟨List.mem_of_find?_eq_some found, takes⟩
  have length := (matchLength?_append (frontOnly_vocabulary l) mem).2 takes
  obtain ⟨s, among, rfl⟩ := List.mem_map.1 mem
  rw [Shape.matchLength?_entry] at length
  have onLine := Shape.onLine_take (List.all_eq_true.1 onLines s among) length
  rwa [List.take_left' rfl] at onLine

end Lexicon

/-! ## Tokens in a source -/

/-- Whether a token stands in a source: its text is on one line there, and its span is that of the text. -/
def Stands (content : String) (t : Token) : Prop :=
  ∃ before text rest, content.toList = before ++ (text ++ rest) ∧ text ≠ [] ∧ OnLine text
    ∧ t.lexeme = String.ofList text ∧ t.span = ⟨.after before, .after (before ++ text.dropLast)⟩

namespace Stands

variable {content : String} {t : Token}

theorem isEmpty (h : Stands content t) : t.isEmpty = false := by
  obtain ⟨before, text, rest, -, ne, -, lexeme, -⟩ := h
  rw [Token.isEmpty, lexeme, String.isEmpty_eq_false_iff, Ne, String.ofList_eq_empty_iff]
  exact ne

/-- **The excerpt at a token** is the text of the token. -/
theorem exists_cut (h : Stands content t) (file : String) :
    ∃ e, Excerpt.cut file content t.span = .ok e ∧ e.text = t.lexeme := by
  obtain ⟨before, text, rest, all, ne, onLine, lexeme, span⟩ := h
  rw [lexeme, span]
  exact Source.exists_cut file all ne onLine.inLine onLine.last

theorem shown_first (h : Stands content t) : Shown content t.span.first := by
  obtain ⟨before, text, rest, all, ne, onLine, -, span⟩ := h
  obtain ⟨c, text, rfl⟩ := List.exists_cons_of_ne_nil ne
  rw [span]
  refine shown_of_visible all ?_ ?_
  · rintro rfl
    exact onLine.inLine List.mem_cons_self
  · rintro rfl
    exact onLine.head rfl

/-- The position behind a token can be shown. -/
theorem shown_end (h : Stands content t) :
    Shown content (.ofCoordinates t.span.last.line (t.span.last.column + 1)) := by
  obtain ⟨before, text, rest, all, ne, onLine, -, span⟩ := h
  -- the last character is no line feed, so the position behind it is on the same line
  have feed : text.getLast ne ≠ '\n' := fun eq => onLine.inLine (eq ▸ List.getLast_mem ne)
  have last : Position.after (before ++ text) = (Position.after (before ++ text.dropLast)).advance (text.getLast ne) := by
    rw [Position.advance_after, List.append_assoc, List.dropLast_append_getLast]
  have behind : Position.ofCoordinates (Position.after (before ++ text.dropLast)).line
      ((Position.after (before ++ text.dropLast)).column + 1) = .after (before ++ text) := by
    rw [last, Position.advance, if_neg feed]
    simp [Position.ofCoordinates, Position.after]
  rw [← List.append_assoc] at all
  rw [span, behind]
  refine shown_after all ?_
  rw [List.getLast?_append_of_ne_nil _ ne]
  exact onLine.last

end Stands

namespace Lexicon

open Vocabulary Regex.Program

variable {l : Lexicon} {content : String} {ts : List Token}

theorem stands_of_cut (onLines : l.onLines) {rest before text : List Char} (cut : l.vocabulary.Cut rest before text ts)
    (all : content.toList = before ++ text) : ∀ t ∈ ts, Stands content t := by
  induction cut with
  | done => exact List.forall_mem_nil _
  | @token before gap lexeme text entry tokens isGap isLexeme others ih =>
    refine List.forall_mem_cons.2 ⟨⟨before ++ gap, lexeme, text, ?_, isLexeme.lexeme_ne,
      onLine_of_isLexeme onLines isLexeme, rfl, rfl⟩, ih ?_⟩
    · rw [all, List.append_assoc]
    · rw [all, List.append_assoc, List.append_assoc]

/-- **All tokens of a source** stand in it. -/
theorem stands_of_tokenize (onLines : l.onLines) (cut : l.vocabulary.tokenize content = .ok ts) :
    ∀ t ∈ ts, Stands content t := by
  have accounts := l.vocabulary.tokenize_accounts (frontOnly_vocabulary l) content
  rw [cut] at accounts
  exact stands_of_cut onLines accounts rfl

/-- What follows the tokens stands behind a gap. -/
theorem exists_isGap {v : Vocabulary} {rest before text : List Char} (cut : v.Cut rest before text ts) :
    ∃ gap, v.IsGap gap rest := by
  induction cut with
  | done isGap => exact ⟨_, isGap⟩
  | token _ _ _ ih => exact ih

/-- What follows a gap is no blank. -/
theorem not_isBlank_of_isGap {gap rest : List Char} {c : Char} (isGap : l.vocabulary.IsGap gap (c :: rest)) :
    Text.isBlank c = false := by
  by_contra blank
  have found : (oneOrMore .blank).find? (c :: rest) = some (0, run .blank rest + 1) := by
    rw [find?_oneOrMore, reachOf, if_pos (by simpa using blank)]
    rfl
  have mem : oneOrMore .blank ∈ l.vocabulary.ignored := List.mem_cons_self
  obtain ⟨-, taken, more, eq, length, takes⟩ := ((frontOnly_vocabulary l).ignored _ mem).takes found
  obtain rfl := isGap.stops _ mem taken more eq takes
  cases length

/-- **The character at which cutting fails** can be shown. -/
theorem shown_of_error {e : LexError} (failed : l.vocabulary.tokenize content = .error e) :
    Shown content e.position := by
  have accounts := l.vocabulary.tokenize_accounts (frontOnly_vocabulary l) content
  rw [failed] at accounts
  obtain ⟨tokens, done, rest, all, cut, -, position⟩ := accounts
  obtain ⟨gap, isGap⟩ := exists_isGap cut
  have visible := not_isBlank_of_isGap isGap
  rw [position]
  refine shown_of_visible all ?_ ?_
  · intro feed
    rw [feed] at visible
    exact absurd visible (by decide)
  · intro ret
    rw [ret] at visible
    exact absurd visible (by decide)

end Lexicon

end Polyglot
