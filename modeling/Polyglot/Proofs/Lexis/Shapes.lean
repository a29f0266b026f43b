import Polyglot.Lexis.Tokenize

/-!
# What entries match

The entries of a vocabulary match by running the program of a regular expression. The
entries that there are in practice have few *shapes*: one exact text, or one of the four
that grammars can use by name. This module says what each shape matches without
programs: how far it reaches into a text (`Shape.reach?`), as a recursion on the text.

The proofs follow the programs. Between two characters a program is at one of its steps;
for the four shapes with a name there are one or two places where it can be after the first
character, and it comes back to them with every further one (`Program.Loops`,
`Program.Encloses`).
-/

namespace Polyglot

open Regex (Program Step)

/-! ## Programs that loop -/

namespace Regex.Program

variable {p : Program} {set : CharSet}

/-- Whether a program, from some of its steps, takes any number of characters of a set and
may stop after each of them. -/
def Loops (p : Program) (set : CharSet) (inside : List Nat → Prop) : Prop :=
  ∀ starts, inside starts → ∀ before,
    (p.advance before none starts).2 = true ∧
    ∀ c, ∃ next, p.advance before (some c) starts = (next, true)
      ∧ if set.contains c then inside next ∧ next ≠ [] else next = []

/-- How many characters of a set a text starts with. -/
def run (set : CharSet) : List Char → Nat
  | [] => 0
  | c :: rest => if set.contains c then run set rest + 1 else 0

/-- A loop takes all characters that it can. -/
theorem Loops.endFrom_eq {inside : List Nat → Prop} (loops : p.Loops set inside)
    {starts : List Nat} (from_ : inside starts) (before : Option Char) (position : Nat)
    (best : Option Nat) (text : List Char) :
    p.endFrom before starts position best text = some (position + run set text) := by
  induction text generalizing starts before position best with
  | nil =>
    obtain ⟨stops, -⟩ := loops starts from_ before
    simp only [endFrom, stops, ↓reduceIte, run, Nat.add_zero]
  | cons c rest ih =>
    obtain ⟨-, takes⟩ := loops starts from_ before
    obtain ⟨next, eq, goes⟩ := takes c
    simp only [endFrom, eq, ↓reduceIte, run]
    split at goes
    · rename_i mem
      rw [if_neg (by simpa using goes.2), ih goes.1, if_pos mem, Nat.add_assoc, Nat.add_comm 1]
    · rename_i mem
      rw [goes, if_pos (by rfl), if_neg mem, Nat.add_zero]

/-- How far a text reaches up to a mark that closes it. A backslash takes the character
after it along, and the text ends on its line. -/
def closing (mark : Char) : Bool → List Char → Option Nat
  | _, [] => none
  | true, c :: rest => if c = '\n' then none else (closing mark false rest).map (· + 1)
  | false, c :: rest =>
    if c = mark then some 1
    else if c = '\n' then none
    else (closing mark (c == '\\') rest).map (· + 1)

/-- Whether a program, from some of its steps, goes on up to a mark. -/
structure Encloses (p : Program) (mark : Char) (inside escaped : List Nat → Prop)
    (closed : List Nat) : Prop where
  /-- Inside, the mark is the end, and a backslash leads to the character after it. -/
  inside_iff : ∀ starts, inside starts → ∀ before,
    (p.advance before none starts).2 = false ∧ ∀ c, ∃ next,
      p.advance before (some c) starts = (next, false)
      ∧ if c = mark then next = closed
        else if c = '\n' then next = []
        else (if c = '\\' then escaped next else inside next) ∧ next ≠ []
  /-- The character after a backslash may be any on the line. -/
  escaped_iff : ∀ starts, escaped starts → ∀ before,
    (p.advance before none starts).2 = false ∧ ∀ c, ∃ next,
      p.advance before (some c) starts = (next, false)
      ∧ if c = '\n' then next = [] else inside next ∧ next ≠ []
  /-- After the mark the match is complete. -/
  closed_iff : closed ≠ [] ∧ ∀ before after, p.advance before after closed = ([], true)

theorem Encloses.endFrom_eq {mark : Char} {inside escaped : List Nat → Prop} {closed : List Nat}
    (encloses : p.Encloses mark inside escaped closed) {starts : List Nat} (bar : Bool)
    (from_ : if bar then escaped starts else inside starts) (before : Option Char)
    (position : Nat) (text : List Char) :
    p.endFrom before starts position none text = (closing mark bar text).map (position + ·) := by
  induction text generalizing starts bar before position with
  | nil =>
    cases bar with
    | true => simp [endFrom, (encloses.escaped_iff starts from_ before).1, closing]
    | false => simp [endFrom, (encloses.inside_iff starts from_ before).1, closing]
  | cons c rest ih =>
    have shift (n : Nat) : position + 1 + n = position + (n + 1) := by omega
    cases bar with
    | true =>
      -- after a bar even a mark does not close
      obtain ⟨next, eq, goes⟩ := (encloses.escaped_iff starts from_ before).2 c
      simp only [endFrom, eq, Bool.false_eq_true, ↓reduceIte, closing]
      split at goes
      · rename_i feed
        simp [goes, feed]
      · rename_i feed
        rw [if_neg (by simpa using goes.2), ih false (by simpa using goes.1), if_neg feed]
        simp [Function.comp_def, shift]
    | false =>
      obtain ⟨next, eq, goes⟩ := (encloses.inside_iff starts from_ before).2 c
      simp only [endFrom, eq, Bool.false_eq_true, ↓reduceIte, closing]
      split at goes
      · rename_i isMark
        obtain ⟨ne, complete⟩ := encloses.closed_iff
        rw [goes, if_neg (by simpa using ne), if_pos isMark]
        cases rest <;> simp [endFrom, complete]
      split at goes
      · rename_i isMark feed
        rw [goes, if_neg isMark, if_pos feed]
        rfl
      · rename_i isMark feed
        rw [if_neg (by simpa using goes.2), if_neg isMark, if_neg feed,
          ih (c == '\\') (by simpa using goes.1)]
        simp [Function.comp_def, shift]

/-! ## The programs that there are -/

/-- One character of a set, and then any number of others. -/
def oneAndMore (first others : CharSet) : Program where
  steps := #[.look .start, .take first, .fork 1 3, .take others, .jump (-2), .accept]
  anchored := true

/-- At least one character of a set. -/
def oneOrMore (set : CharSet) : Program where
  steps := #[.look .start, .take set, .fork (-1) 1, .accept]
  anchored := true

theorem loops_oneAndMore (first others : CharSet) :
    (oneAndMore first others).Loops others fun starts => starts = [2] ∨ starts = [4] := by
  rintro _ (rfl | rfl) before
  · refine ⟨rfl, fun c => ?_⟩
    by_cases mem : others.contains c
    · simp [advance, follow, oneAndMore, target, mem]
    · simp [advance, follow, oneAndMore, target, mem]
  · refine ⟨rfl, fun c => ?_⟩
    by_cases mem : others.contains c
    · simp [advance, follow, oneAndMore, target, mem]
    · simp [advance, follow, oneAndMore, target, mem]

theorem loops_oneOrMore (set : CharSet) :
    (oneOrMore set).Loops set fun starts => starts = [2] := by
  rintro _ rfl before
  refine ⟨rfl, fun c => ?_⟩
  by_cases mem : set.contains c
  · simp [advance, follow, oneOrMore, target, mem]
  · simp [advance, follow, oneOrMore, target, mem]

/-- The end of a match that starts with one character and goes on with others. -/
def reachOf (first others : CharSet) : List Char → Option Nat
  | [] => none
  | c :: rest => if first.contains c then some (run others rest + 1) else none

theorem find?_oneAndMore (first others : CharSet) (text : List Char) :
    (oneAndMore first others).find? text = (reachOf first others text).map (0, ·) := by
  cases text with
  | nil => rfl
  | cons c rest =>
    have loops := loops_oneAndMore first others
    by_cases mem : first.contains c
    · have started : (oneAndMore first others).advance none (some c) [0] = ([2], false) := by
        simp [advance, follow, oneAndMore, mem, Look.holds]
      simp only [find?, endAt?, endFrom, started, reachOf, mem, loops.endFrom_eq (.inl rfl),
        List.isEmpty_cons, Bool.false_eq_true, ↓reduceIte, Nat.zero_add, Nat.add_comm 1]
      rfl
    · have started : (oneAndMore first others).advance none (some c) [0] = ([], false) := by
        simp [advance, follow, oneAndMore, mem, Look.holds]
      simp only [find?, endAt?, endFrom, started, reachOf, mem]
      rfl

theorem find?_oneOrMore (set : CharSet) (text : List Char) :
    (oneOrMore set).find? text = (reachOf set set text).map (0, ·) := by
  cases text with
  | nil => rfl
  | cons c rest =>
    have loops := loops_oneOrMore set
    by_cases mem : set.contains c
    · have started : (oneOrMore set).advance none (some c) [0] = ([2], false) := by
        simp [advance, follow, oneOrMore, mem, Look.holds]
      simp only [find?, endAt?, endFrom, started, reachOf, mem, loops.endFrom_eq rfl,
        List.isEmpty_cons, Bool.false_eq_true, ↓reduceIte, Nat.zero_add, Nat.add_comm 1]
      rfl
    · have started : (oneOrMore set).advance none (some c) [0] = ([], false) := by
        simp [advance, follow, oneOrMore, mem, Look.holds]
      simp only [find?, endAt?, endFrom, started, reachOf, mem]
      rfl

/-- The characters of a line that are neither a mark nor a backslash. -/
def plainIn (mark : Char) : CharSet :=
  CharSet.complement (.unionOfList [.singleton mark, .singleton '\\', .singleton '\n'])

/-- A text between two marks. -/
def between (mark : Char) : Program where
  steps := #[.look .start, .take (.singleton mark), .fork 1 7, .fork 1 3, .take (plainIn mark),
    .jump 3, .take (.singleton '\\'), .take .anyInLine, .jump (-6), .take (.singleton mark), .accept]
  anchored := true

/-- The marks that there are around a text: the double quote and the slash. -/
def IsMark (mark : Char) : Prop := mark = '"' ∨ mark = '/'

theorem IsMark.contains_plainIn {mark : Char} (isMark : IsMark mark) (c : Char) :
    (plainIn mark).contains c = (c != mark && c != '\\' && c != '\n') := by
  have ranges : (plainIn '"' = ⟨[(0, 9), (11, 33), (35, 91), (93, 0xD7FF), (0xE000, 0x10FFFF)]⟩)
      ∧ (plainIn '/' = ⟨[(0, 9), (11, 46), (48, 91), (93, 0xD7FF), (0xE000, 0x10FFFF)]⟩) := by
    decide
  have valid : c.toNat < 0xD800 ∨ 0xDFFF < c.toNat ∧ c.toNat < 0x110000 := c.valid
  have number (d : Char) : c = d ↔ c.toNat = d.toNat := Char.toNat_inj.symm
  rw [Bool.eq_iff_iff]
  rcases isMark with rfl | rfl
  · simp only [ranges, CharSet.contains, List.any_cons, List.any_nil, Bool.or_false,
      Bool.or_eq_true, Bool.and_eq_true, decide_eq_true_eq, bne_iff_ne, ne_eq, number,
      show '"'.toNat = 34 from rfl, show '\\'.toNat = 92 from rfl, show '\n'.toNat = 10 from rfl]
    omega
  · simp only [ranges, CharSet.contains, List.any_cons, List.any_nil, Bool.or_false,
      Bool.or_eq_true, Bool.and_eq_true, decide_eq_true_eq, bne_iff_ne, ne_eq, number,
      show '/'.toNat = 47 from rfl, show '\\'.toNat = 92 from rfl, show '\n'.toNat = 10 from rfl]
    omega

theorem IsMark.ne {mark : Char} (isMark : IsMark mark) : mark ≠ '\\' ∧ mark ≠ '\n' := by
  rcases isMark with rfl | rfl <;> decide

/-- What follows a text between marks, up to the mark. -/
theorem encloses_between {mark : Char} (isMark : IsMark mark) :
    (between mark).Encloses mark (fun starts => starts = [2] ∨ starts = [5] ∨ starts = [8])
      (fun starts => starts = [7]) [10] where
  inside_iff starts from_ before := by
    have plain := isMark.contains_plainIn
    obtain ⟨notBar, notFeed⟩ := isMark.ne
    refine ⟨?_, fun c => ?_⟩
    · rcases from_ with rfl | rfl | rfl <;> rfl
    · have here : (between mark).advance before (some c) starts
          = (if c = mark then [10] else if c = '\n' then [] else if c = '\\' then [7] else [5],
            false) := by
        -- all places inside go on alike
        rcases from_ with rfl | rfl | rfl
        all_goals
          by_cases isMark' : c = mark
          · subst isMark'
            simp [advance, follow, between, target, plain, notBar]
          by_cases feed : c = '\n'
          · subst feed
            simp [advance, follow, between, target, plain, isMark']
          by_cases bar : c = '\\'
          · subst bar
            simp [advance, follow, between, target, plain, isMark']
          · simp [advance, follow, between, target, plain, isMark', feed, bar]
      refine ⟨_, here, ?_⟩
      split
      · rfl
      split
      · rfl
      split <;> simp
  escaped_iff starts from_ before := by
    obtain rfl : starts = [7] := from_
    refine ⟨rfl, fun c => ?_⟩
    by_cases feed : c = '\n'
    · subst feed
      exact ⟨[], by simp [advance, follow, between], rfl⟩
    · exact ⟨[8], by simp [advance, follow, between, feed], by simp [feed]⟩
  closed_iff := by
    refine ⟨by simp, fun before after => ?_⟩
    simp [advance, follow, between]

/-- The end of a match between two marks. -/
def reachBetween (mark : Char) : List Char → Option Nat
  | [] => none
  | c :: rest => if c = mark then (closing mark false rest).map (· + 1) else none

theorem find?_between {mark : Char} (isMark : IsMark mark) (text : List Char) :
    (between mark).find? text = (reachBetween mark text).map (0, ·) := by
  cases text with
  | nil => rfl
  | cons c rest =>
    have encloses := encloses_between isMark
    by_cases same : c = mark
    · subst same
      have started : (between c).advance none (some c) [0] = ([2], false) := by
        simp [advance, follow, between, Look.holds]
      have inside : [2] = [2] ∨ [2] = [5] ∨ [2] = [8] := .inl rfl
      have reached := encloses.endFrom_eq false inside
      simp only [find?, endAt?, endFrom, started, reachBetween,
        reached, List.isEmpty_cons, Bool.false_eq_true, ↓reduceIte, Nat.zero_add, Nat.add_comm 1]
      rfl
    · have started : (between mark).advance none (some c) [0] = ([], false) := by
        simp [advance, follow, between, same, Look.holds]
      simp only [find?, endAt?, endFrom, started, reachBetween, same]
      rfl

/-! ## Exact texts -/

/-- The program for exactly one text. -/
def exactly (text : List Char) : Program where
  steps := (Step.look .start :: text.map (fun c => .take (.singleton c)) ++ [Step.accept]).toArray
  anchored := true

theorem steps_exactly {done rest : List Char} {c : Char} :
    (exactly (done ++ c :: rest)).steps[done.length + 1]? = some (.take (.singleton c)) := by
  simp [exactly]

theorem steps_exactly_end {text : List Char} :
    (exactly text).steps[text.length + 1]? = some Step.accept := by
  simp [exactly]

theorem follow_nil {p : Program} {before after : Option Char} {fuel : Nat}
    {entered : Std.TreeSet Nat} {next : List Nat} :
    p.follow before after fuel [] entered next = (next.reverse, false) := by
  cases fuel <;> rfl

/-- From the step for a character of an exact text, the rest of the text is taken. -/
theorem endFrom_exactly (done : List Char) {whole rest : List Char} (eq : whole = done ++ rest)
    (before : Option Char) (position : Nat) (text : List Char) :
    (exactly whole).endFrom before [done.length + 1] position none text
      = if rest.isPrefixOf text then some (position + rest.length) else none := by
  induction rest generalizing done before position text with
  | nil =>
    obtain rfl : whole = done := by simpa using eq
    have complete (after : Option Char) :
        (exactly whole).advance before after [whole.length + 1] = ([], true) := by
      simp [advance, follow, steps_exactly_end]
    cases text <;> simp [endFrom, complete]
  | cons c rest ih =>
    subst eq
    cases text with
    | nil => simp [endFrom, advance, follow, steps_exactly, follow_nil]
    | cons d text =>
      by_cases same : d = c
      · subst same
        have taken : (exactly (done ++ d :: rest)).advance before (some d) [done.length + 1]
            = ([done.length + 1 + 1], false) := by
          simp [advance, follow, steps_exactly, follow_nil]
        have further := ih (done ++ [d]) (by simp) (some d) (position + 1) text
        rw [List.length_append, List.length_singleton] at further
        simp only [endFrom, taken, List.isEmpty_cons, Bool.false_eq_true, ↓reduceIte, further,
          List.isPrefixOf, beq_self_eq_true, Bool.true_and, List.length_cons]
        rw [Nat.add_assoc, Nat.add_comm 1]
      · have refused : (exactly (done ++ c :: rest)).advance before (some d) [done.length + 1]
            = ([], false) := by
          simp [advance, follow, steps_exactly, follow_nil, same]
        simp [endFrom, refused, List.isPrefixOf, Ne.symm same]

/-- The end of a match of exactly one text. -/
def reachExactly (exact text : List Char) : Option Nat :=
  if exact.isPrefixOf text then some exact.length else none

theorem find?_exactly (whole text : List Char) :
    (exactly whole).find? text = (reachExactly whole text).map (0, ·) := by
  have started (after : Option Char) :
      (exactly whole).advance none after [0] = (exactly whole).advance none after [1] := by
    have first : (exactly whole).steps[0]? = some (.look .start) := by simp [exactly]
    cases whole with
    | nil =>
      have second : (exactly []).steps[1]? = some .accept := rfl
      simp [advance, follow, first, second, Look.holds, Nat.add_comm 1]
    | cons c rest =>
      have second : (exactly (c :: rest)).steps[1]? = some (.take (.singleton c)) := by
        simp [exactly]
      simp [advance, follow, follow_nil, first, second, Look.holds, Nat.add_comm 1]
  have from_ : (exactly whole).endFrom none [0] 0 none text
      = (exactly whole).endFrom none [1] 0 none text := by
    cases text <;> simp only [endFrom, started]
  have anchored : (exactly whole).anchored = true := rfl
  have reaches := endFrom_exactly [] (List.nil_append whole).symm none 0 text
  rw [Nat.zero_add] at reaches
  rw [find?, if_pos anchored, endAt?, from_, reachExactly, ← reaches]
  rfl

end Regex.Program

/-! ## Shapes -/

namespace Lexicon

open Regex.Program

/-- What can start an identifier. -/
def initials : CharSet := ⟨[(65, 90), (95, 95), (97, 122)]⟩

/-- What an identifier can go on with. -/
def wordParts : CharSet := ⟨[(48, 57), (65, 90), (95, 95), (97, 122)]⟩

/-- The decimal digits of ASCII. -/
def digits : CharSet := ⟨[(48, 57)]⟩

/-- What the entries of a vocabulary look like. -/
inductive Shape where
  /-- One text. -/
  | exact (text : String)
  /-- An identifier. -/
  | identifier
  /-- A decimal integer. -/
  | integer
  /-- A text in double quotes. -/
  | string
  /-- A text between slashes. -/
  | regex
  deriving DecidableEq, Repr

namespace Shape

/-- The entry of a shape. -/
def entry : Shape → Entry
  | exact text => .exact text
  | identifier => ⟨"identifier", oneAndMore initials wordParts, .none⟩
  | integer => ⟨"decimal_integer", oneOrMore digits, .integer⟩
  | string => ⟨"escaped_string", between '"', .string⟩
  | regex => ⟨"regex", between '/', .regex⟩

/-- How far the match at the front of a text reaches. -/
def reach? : Shape → List Char → Option Nat
  | exact whole => reachExactly whole.toList
  | identifier => reachOf initials wordParts
  | integer => reachOf digits digits
  | string => reachBetween '"'
  | regex => reachBetween '/'

end Shape

/-- The program of an exact text behind the sign for the start. -/
theorem program_literal (text : List Char) :
    (Regex.concat [.look .start, .literal text]).program = exactly text := by
  unfold Regex.literal
  cases text with
  | nil => rfl
  | cons c rest => rfl

/-- **The entries that grammars can use by name** are those of the four shapes with a
name. -/
theorem builtinEntries_eq :
    builtinEntries = [Shape.identifier.entry, Shape.integer.entry, Shape.string.entry,
      Shape.regex.entry] := by
  decide +kernel

/-- **An entry matches** as far as its shape reaches. -/
theorem Shape.matchLength?_entry (s : Shape) (text : List Char) :
    s.entry.matchLength? text = s.reach? text := by
  have map_snd (r : Option Nat) : (r.map (0, ·)).map Prod.snd = r := by cases r <;> rfl
  unfold Entry.matchLength?
  cases s with
  | exact whole =>
    show ((Regex.concat [.look .start, .literal whole.toList]).program.find? text).map _ = _
    rw [program_literal, find?_exactly, map_snd]
    rfl
  | identifier => rw [← map_snd (reach? _ _)]; exact congrArg _ (find?_oneAndMore ..)
  | integer => rw [← map_snd (reach? _ _)]; exact congrArg _ (find?_oneOrMore ..)
  | string => rw [← map_snd (reach? _ _)]; exact congrArg _ (find?_between (.inl rfl) _)
  | regex => rw [← map_snd (reach? _ _)]; exact congrArg _ (find?_between (.inr rfl) _)

end Lexicon

end Polyglot
