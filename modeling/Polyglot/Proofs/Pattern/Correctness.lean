import Polyglot.Proofs.Pattern.Lowering

/-!
# The programs of patterns

The program that a pattern is made into matches a text as a whole just if the pattern means it
(`Pattern.matcher?_correct`). There is such a program for each pattern that keeps two limits of
regular expressions: one on how deeply they are nested, which patterns with up to 60 brackets
inside each other keep, and one on their weight.

**A literal without characters cannot be repeated.** It is lowered to nothing, so the sign after
it applies to what was there before (`Pattern.misreads_empty_literal`) or, if nothing was, to nothing
at all. Which patterns mean the empty text can be computed (`Pattern.nil_mem_meaning_iff`).
-/

namespace Polyglot.Pattern

open Regex (Nested Reading rowOf)
open Regex.Reading (LeadsTo)

/-! ## Whole patterns -/

section

variable {choice : Option Nat} {u : Tree}

theorem written_regex : written (.node "regex" none choice [u]) = written u :=
  written_single (by decide)

theorem meaning_regex (phrase : IsPhrase .alternation u) :
    meaning (.node "regex" none choice [u]) = meaning u :=
  meaning_single (by decide) phrase.isMark_eq_false

theorem nesting_regex (phrase : IsPhrase .alternation u) :
    nesting (.node "regex" none choice [u]) = nesting u := by
  obtain ⟨_, _, rfl⟩ := phrase.eq_node
  rw [nesting, nestings, nestings, Nat.max_zero]
  rfl

/-- What is in hand at the end of the written form of a phrase between both ends of a text. -/
def wholeParts (part : Nested Regex) : List (Nested Regex) :=
  [⟨.look .stop, 0⟩, part, ⟨.look .start, 0⟩]

theorem depth_wholeParts_le {part : Nested Regex} {depth : Nat} (shallow : part.depth ≤ depth) :
    (rowOf (wholeParts part)).depth ≤ depth + 1 :=
  depth_join_le (by simpa [wholeParts] using shallow)

/-- The written form of a phrase as a whole is one group between the two ends. -/
theorem exists_leadsTo {room : Nat} (phrase : IsPhrase .alternation u)
    (something : RepeatsSomething u) (enough : nesting u < room) :
    ∃ part : Nested Regex, part.value.Denotes (meaning u) ∧ part.depth ≤ 4 * nesting u + 7
      ∧ LeadsTo (room + 1) ⟨[], [], "^(?:".toList ++ written u ++ ")$".toList⟩
        ⟨[], wholeParts part, []⟩ := by
  have read : PutsBranches room (4 * nesting u + 5) (written u) (meaning u) :=
    isRead phrase something enough
  obtain ⟨part, denotes, shallow, -, reads⟩ := read.group
  refine ⟨part, denotes, shallow, ?_⟩
  have text : "^(?:".toList ++ written u ++ ")$".toList
      = '^' :: (('(' :: '?' :: ':' :: (written u ++ [')'])) ++ ['$']) := by
    show '^' :: '(' :: '?' :: ':' :: (written u ++ [')', '$']) = _
    simp
  rw [text]
  exact (LeadsTo.start.trans (reads ..)).trans .stop

/-- What the parts of the whole make, if they are not too deep. -/
theorem finish_wholeParts {part : Nested Regex} {texts : Texts} (denotes : part.value.Denotes texts)
    (shallow : (rowOf (wholeParts part)).depth ≤ Regex.depthLimit) :
    Regex.finish (wholeParts part) = .error .tooHeavy
      ∨ ∃ r, Regex.finish (wholeParts part) = .ok r
        ∧ ∀ text, r.program.isMatch text ↔ text ∈ texts := by
  rw [Regex.finish, if_neg (Nat.not_lt.2 shallow)]
  split
  · exact .inl rfl
  · exact .inr ⟨_, rfl, Regex.isMatch_whole denotes⟩

/-- What is made of the written form of a phrase between both ends of a text. -/
theorem parse_whole (phrase : IsPhrase .alternation u) (something : RepeatsSomething u) :
    (Regex.parse ("^(?:".toList ++ written u ++ ")$".toList) = .error .tooDeep ∧ 60 < nesting u)
    ∨ Regex.parse ("^(?:".toList ++ written u ++ ")$".toList) = .error .tooHeavy
    ∨ ∃ r, Regex.parse ("^(?:".toList ++ written u ++ ")$".toList) = .ok r
        ∧ ∀ text, r.program.isMatch text ↔ text ∈ meaning u := by
  by_cases flat : nesting u ≤ 60
  · have enough : nesting u < 249 := by omega
    obtain ⟨part, denotes, shallow, reads⟩ := exists_leadsTo phrase something enough
    have shallow' : (rowOf (wholeParts part)).depth ≤ Regex.depthLimit := by
      refine Nat.le_trans (depth_wholeParts_le shallow) ?_
      rw [Regex.depthLimit]
      omega
    rw [Regex.parse_eq_finish reads]
    exact .inr (finish_wholeParts denotes shallow')
  · replace flat := Nat.not_le.1 flat
    -- with enough room for all brackets the whole is read, and less room only refuses
    have enough : nesting u < nesting u + Regex.depthLimit :=
      Nat.lt_add_of_pos_right (by decide)
    obtain ⟨part, denotes, -, reads⟩ := exists_leadsTo phrase something enough
    have le : Regex.depthLimit ≤ nesting u + Regex.depthLimit + 1 := by omega
    obtain refused | same := Regex.parse_orTooDeep le reads
    · exact .inl ⟨refused, flat⟩
    · rw [same]
      by_cases shallow : (rowOf (wholeParts part)).depth ≤ Regex.depthLimit
      · exact .inr (finish_wholeParts denotes shallow)
      · exact .inl ⟨if_pos (Nat.not_le.1 shallow), flat⟩

end

/-- What is read from a text can be checked by reading it. -/
theorem exists_parseShaken {source : String} {p : Tree → Bool}
    (checked : ((lexicon.tokenize source.toList).toOption.bind (readGrammar.parseAlong 40)).any
      fun raw => p (language.shake raw)) : ∃ t, language.parseShaken source = .ok t ∧ p t := by
  have grammar : language.grammar? = .ok readGrammar := grammar_eq_readGrammar
  obtain ⟨raw, parsed, holds⟩ := Language.exists_parse grammar rfl 40 checked
  refine ⟨language.shake raw, ?_, holds⟩
  rw [Language.parseShaken, parsed]
  rfl

/-- **A program of a pattern matches what the pattern means**, as a whole: that is what comes out,
unless a limit is passed, for each pattern that has no empty literal with a sign of repetition. -/
theorem matcher?_correct {source : String} {t : Tree} (parsed : language.parseShaken source = .ok t)
    (valid : ∀ token ∈ t.tokens, token.type = "escaped_string" → token.str?.isSome)
    (something : ∀ u ∈ t.parts, repeatsNothing u = false) :
    matcher? t = .error .tooDeep ∧ 60 < nesting t ∨ matcher? t = .error .tooHeavy
      ∨ ∃ p, matcher? t = .ok p ∧ ∀ text, p.isMatch text ↔ text ∈ meaning t := by
  obtain ⟨choice, u, rfl, phrase⟩ := exists_phrase parsed valid
  replace something := RepeatsSomething.of_mem something List.mem_cons_self
  rw [nesting_regex phrase, meaning_regex phrase]
  have split : matcher? (.node "regex" none choice [u])
      = (Regex.parse ("^(?:".toList ++ written u ++ ")$".toList)).map Regex.program := by
    rw [matcher?, ← @written_regex choice, List.append_assoc]
    rfl
  obtain ⟨refused, deep⟩ | refused | ⟨r, made, decides⟩ := @parse_whole u phrase something
  · exact .inl ⟨by rw [split, refused]; rfl, deep⟩
  · exact .inr (.inl (by rw [split, refused]; rfl))
  · exact .inr (.inr ⟨r.program, by rw [split, made]; rfl, decides⟩)

theorem matcher?_correct_brackets : ∃ t p, language.parseShaken "(a | \"b\" c*)+ \"?\"" = .ok t
    ∧ (∀ token ∈ t.tokens, token.type = "escaped_string" → token.str?.isSome)
    ∧ (∀ u ∈ t.parts, repeatsNothing u = false)
    ∧ matcher? t = .ok p ∧ ∀ text, p.isMatch text ↔ text ∈ meaning t := by
  obtain ⟨t, parsed, checked⟩ := @exists_parseShaken "(a | \"b\" c*)+ \"?\"" (fun t =>
    (t.tokens.all fun token => token.type != "escaped_string" || token.str?.isSome)
      && (t.parts.all fun u => !repeatsNothing u) && (matcher? t).toOption.isSome) (by decide +kernel)
  simp only [Bool.and_eq_true, List.all_eq_true, Bool.or_eq_true, bne_iff_ne,
    ← imp_iff_not_or, Bool.not_eq_true'] at checked
  obtain ⟨⟨valid, something⟩, made⟩ := checked
  obtain ⟨p, made⟩ := Option.isSome_iff_exists.1 made
  replace made := Except.toOption_eq_some.1 made
  obtain ⟨refused, -⟩ | refused | ⟨p', made', decides⟩ := matcher?_correct parsed valid something
  · cases made.symm.trans refused
  · cases made.symm.trans refused
  · exact ⟨t, p', parsed, valid, something, made', decides⟩

/-! ## The empty text -/

mutual

/-- Whether a pattern means the empty text. -/
def meansEmpty : Tree → Bool
  | .leaf name _ _ token =>
    name != "any" && (if name == "escaped_string" then token.str? == some "" else token.lexeme == "")
  | .node name _ _ children =>
    if name == "alternation" then someMeansEmpty children
    else [.optional, .star].contains (multiplicity children) || allMeanEmpty children

/-- Whether one of some patterns means the empty text. -/
def someMeansEmpty : List Tree → Bool
  | [] => false
  | t :: ts => !isMark t && meansEmpty t || someMeansEmpty ts

/-- Whether all of some patterns mean the empty text. -/
def allMeanEmpty : List Tree → Bool
  | [] => true
  | t :: ts => (isMark t || meansEmpty t) && allMeanEmpty ts

end

theorem nil_mem_only {text : String} : [] ∈ only text ↔ text = "" := by
  rw [← String.toList_eq_nil_iff]
  exact eq_comm

theorem nil_mem_meaningOfLeaf {name : String} {token : Token} : [] ∈ meaningOfLeaf name token
    ↔ name != "any" && (if name == "escaped_string" then token.str? == some ""
      else token.lexeme == "") := by
  have other : [] ∉ oneInLine := fun ⟨_, _, eq⟩ => absurd eq (List.cons_ne_nil _ _).symm
  unfold meaningOfLeaf
  by_cases any : name = "any"
  · simp [any, other]
  · by_cases quoted : name = "escaped_string"
    · cases token.str? <;> simp [quoted, nil_mem_only, Language.notMem_zero]
    · simp [any, quoted, nil_mem_only]

theorem nil_mem_mul {l m : Texts} : [] ∈ l * m ↔ [] ∈ l ∧ [] ∈ m := by
  rw [Language.mem_mul]
  constructor
  · rintro ⟨a, mem, b, mem', eq⟩
    obtain ⟨rfl, rfl⟩ := List.append_eq_nil_iff.1 eq
    exact ⟨mem, mem'⟩
  · exact fun ⟨mem, mem'⟩ => ⟨[], mem, [], mem', rfl⟩

theorem nil_mem_repeatedBy {m : Multiplicity} {texts : Texts} :
    [] ∈ repeatedBy m texts ↔ m ∈ [.optional, .star] ∨ [] ∈ texts := by
  cases m with
  | one => simp [repeatedBy]
  | optional => simp [repeatedBy, Language.mem_add]
  | star => simp [repeatedBy, Language.nil_mem_kstar]
  | plus => simp [repeatedBy, nil_mem_mul, Language.nil_mem_kstar]

mutual

/-- Which patterns mean the empty text can be computed. -/
theorem nil_mem_meaning_iff (t : Tree) : [] ∈ meaning t ↔ meansEmpty t := by
  cases t with
  | leaf name label terminal token =>
    rw [meaning, meansEmpty]
    exact nil_mem_meaningOfLeaf
  | node name label choice children =>
    rw [meaning, meansEmpty]
    split
    · exact nil_mem_sum_iff children
    · rw [nil_mem_repeatedBy, nil_mem_prod_iff children, Bool.or_eq_true, List.contains_iff_mem]

theorem nil_mem_sum_iff (ts : List Tree) : [] ∈ (meanings ts).sum ↔ someMeansEmpty ts := by
  cases ts with
  | nil =>
    rw [meanings_nil, someMeansEmpty]
    exact iff_of_false (Language.notMem_zero _) Bool.false_ne_true
  | cons t ts =>
    rw [someMeansEmpty, Bool.or_eq_true, ← nil_mem_sum_iff ts]
    cases mark : isMark t with
    | true => simp [meanings_mark mark]
    | false => simp [meanings_solid mark, Language.mem_add, nil_mem_meaning_iff t]

theorem nil_mem_prod_iff (ts : List Tree) : [] ∈ (meanings ts).prod ↔ allMeanEmpty ts := by
  cases ts with
  | nil =>
    rw [meanings_nil, allMeanEmpty]
    exact iff_of_true Language.nil_mem_one rfl
  | cons t ts =>
    rw [allMeanEmpty, Bool.and_eq_true, ← nil_mem_prod_iff ts]
    cases mark : isMark t with
    | true => simp [meanings_mark mark]
    | false => simp [meanings_solid mark, nil_mem_mul, nil_mem_meaning_iff t]

end

/-- An empty literal with a sign of repetition: the sign applies to the letter before it. -/
theorem misreads_empty_literal : ∃ t p, language.parseShaken "a \"\"*" = .ok t
    ∧ (∀ token ∈ t.tokens, token.type = "escaped_string" → token.str?.isSome)
    ∧ matcher? t = .ok p ∧ p.isMatch [] ∧ [] ∉ meaning t := by
  obtain ⟨t, parsed, checked⟩ := @exists_parseShaken "a \"\"*" (fun t =>
    (t.tokens.all fun token => token.type != "escaped_string" || token.str?.isSome)
      && (matcher? t).toOption.any (·.isMatch []) && !meansEmpty t) (by decide +kernel)
  simp only [Bool.and_eq_true, List.all_eq_true, Bool.or_eq_true, bne_iff_ne,
    ← imp_iff_not_or, Bool.not_eq_true', Option.any_eq_true] at checked
  obtain ⟨⟨valid, p, made, matched⟩, other⟩ := checked
  refine ⟨t, p, parsed, valid, Except.toOption_eq_some.1 made, matched, ?_⟩
  rw [nil_mem_meaning_iff, other]
  exact Bool.false_ne_true

end Polyglot.Pattern
