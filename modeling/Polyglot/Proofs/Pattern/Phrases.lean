import Mathlib
import Polyglot.Pattern.Lower
import Polyglot.Proofs.Language.Grammars
import Polyglot.Proofs.Lexis.Sharing
import Polyglot.Proofs.Parsing.Tokens
import Polyglot.Proofs.Tree.Unplaced

/-!
# The meaning of patterns

A pattern means a set of texts (`Pattern.meaning`): what stands for itself means its text, the
point any character but a line feed, phrases next to each other a row, and alternatives what one
of them means. A sign of repetition applies to the primary before it. This is said of the trees
that shaking leaves, with the operations of formal languages, and without regular expressions.

What these trees look like follows from the grammar (`Pattern.IsPhrase`): alternatives of rows of
repetitions of primaries, and nothing else (`Pattern.exists_phrase`).
-/

/-- Sets of texts, with the operations of formal languages. -/
abbrev Texts : Type := Language Char

namespace Polyglot.Pattern

open scoped Computability

/-! ## Meaning -/

/-- What is meant by something so many times. -/
noncomputable def repeatedBy : Multiplicity → Texts → Texts
  | .one, texts => texts
  | .optional, texts => 1 + texts
  | .star, texts => texts∗
  | .plus, texts => texts * texts∗

/-- Whether a tree only says how the trees beside it are put together. -/
def isMark (t : Tree) : Bool := ["\"|\"", "\"(\"", "\")\"", "quantifier"].contains t.name

/-- How many times the first of some trees is meant. -/
def multiplicity (children : List Tree) : Multiplicity :=
  ((children.find? (·.name == "quantifier")).bind fun t => Multiplicity.ofSuffix? t.text).getD .one

/-- One character that is no line feed. -/
def oneInLine : Texts := {text | ∃ c, c ≠ '\n' ∧ text = [c]}

/-- One text. -/
def only (text : String) : Texts := {text.toList}

/-- What is meant by a leaf. A text in quotes means the one it is written for, if there is one. -/
noncomputable def meaningOfLeaf (name : String) (token : Token) : Texts :=
  if name == "any" then oneInLine
  else if name == "escaped_string" then (token.str?.map only).getD 0
  else only token.lexeme

mutual

/-- The texts that a tree of a pattern means. -/
noncomputable def meaning : Tree → Texts
  | .leaf name _ _ token => meaningOfLeaf name token
  | .node name _ _ children =>
    if name == "alternation" then (meanings children).sum
    else repeatedBy (multiplicity children) (meanings children).prod

/-- The texts that each of some trees means, but for the marks among them. -/
noncomputable def meanings : List Tree → List Texts
  | [] => []
  | t :: ts => if isMark t then meanings ts else meaning t :: meanings ts

end

/-! ## Limits and the empty literal -/

mutual

/-- How many brackets of a pattern are inside each other. -/
def nesting : Tree → Nat
  | .leaf .. => 0
  | .node _ _ _ children =>
    nestings children + if children.head?.any (·.name == "\"(\"") then 1 else 0

/-- How many brackets of some patterns are inside each other. -/
def nestings : List Tree → Nat
  | [] => 0
  | t :: ts => max (nesting t) (nestings ts)

end

/-- Whether a sign of repetition applies to a literal without characters. -/
def repeatsNothing (t : Tree) : Bool :=
  t.name == "repetition" && t.children.length == 2
    && t.children.head?.any fun atom => atom.tokens.all fun token => token.str? == some ""

/-! ## Phrases -/

/-- What a pattern is made of. -/
inductive Phrase where
  | alternation | concatenation | repetition | primary

/-- Whether a token stands for a text by itself. -/
structure IsAtom (token : Token) : Prop where
  /-- It is a word, a number or a text in quotes. -/
  kind : token.type ∈ ["identifier", "decimal_integer", "escaped_string"]
  /-- Words and numbers stand for what they are. -/
  plain : token.type ≠ "escaped_string" → token.str? = none ∧ token.lexeme ≠ ""
  /-- A text in quotes has valid escapes. -/
  valid : token.type = "escaped_string" → token.str?.isSome

/-- The token of a sign. -/
def signTree (sign : String) (token : Token) : Tree := .leaf (Text.quote sign) none none token

/-- A sign of alternatives with what comes after it. -/
def branchTrees (k : Token × Tree) : List Tree := [signTree "|" k.1, k.2]

/-- Whether a tree is what shaking leaves of a phrase. -/
inductive IsPhrase : Phrase → Tree → Prop
  /-- What stands for itself. -/
  | literal {choice choice' : Option Nat} {token : Token} (atom : IsAtom token) :
      IsPhrase .primary (.node "primary" none choice
        [.node "literal" none choice' [.leaf token.type none none token]])
  /-- The point. -/
  | any {choice : Option Nat} {terminal : Option String} {token : Token}
      (dot : token.str? = none) :
      IsPhrase .primary (.node "primary" none choice [.leaf "any" none terminal token])
  /-- A phrase in brackets. -/
  | group {choice : Option Nat} {left right : Token} {t : Tree} (opens : left.lexeme = "(")
      (closes : right.lexeme = ")") (bare : left.str? = none) (inner : IsPhrase .alternation t) :
      IsPhrase .primary (.node "primary" none choice [signTree "(" left, t, signTree ")" right])
  /-- A primary alone. -/
  | once {choice : Option Nat} {t : Tree} (atom : IsPhrase .primary t) :
      IsPhrase .repetition (.node "repetition" none choice [t])
  /-- A primary with a sign of repetition. -/
  | often {choice choice' : Option Nat} {t : Tree} {m : Multiplicity} {token : Token}
      (atom : IsPhrase .primary t) (many : m ≠ .one) (sign : token.lexeme = m.suffix) :
      IsPhrase .repetition (.node "repetition" none choice
        [t, .node "quantifier" none choice' [signTree m.suffix token]])
  /-- A row. -/
  | concatenation {choice : Option Nat} {ts : List Tree} (each : ∀ t ∈ ts, IsPhrase .repetition t) :
      IsPhrase .concatenation (.node "concatenation" none choice ts)
  /-- Alternatives. -/
  | alternation {choice : Option Nat} {t : Tree} {ks : List (Token × Tree)}
      (first : IsPhrase .concatenation t) (signs : ∀ k ∈ ks, k.1.lexeme = "|")
      (others : ∀ k ∈ ks, IsPhrase .concatenation k.2) :
      IsPhrase .alternation (.node "alternation" none choice (t :: ks.flatMap branchTrees))

/-! ## The grammar -/

open Assembly (word)
open B (one)

/-- The rules of the language, the last of which stands for the group in the second. -/
def rules : Array Rule := #[
  ⟨"regex", .choice [[one 1]]⟩,
  ⟨"alternation", .choice [[one 2, { one 8 with multiplicity := .star }]]⟩,
  ⟨"concatenation", .choice [[{ one 3 with multiplicity := .plus }]]⟩,
  ⟨"repetition", .choice [[one 5, { one 4 with multiplicity := .optional }]]⟩,
  ⟨"quantifier", .choice [[word "*"], [word "+"], [word "?"]]⟩,
  ⟨"primary", .choice [[one 6], [one 7], [word "(", one 1, word ")"]]⟩,
  ⟨"literal", .choice [[{ symbol := .terminal "identifier" }],
    [{ symbol := .terminal "decimal_integer" }], [{ symbol := .terminal "escaped_string" }]]⟩,
  ⟨"any", .aliasOf (Text.quote ".")⟩,
  ⟨"alternation:0", .choice [[word "|", one 2]]⟩]

/-- The grammar of the language, as it comes out. -/
def readGrammar : Grammar := ⟨"regex", lexicon.vocabulary, rules, 0, []⟩

theorem grammar_eq_readGrammar : grammar = .ok readGrammar := by
  unfold grammar source
  apply Xbnf.load_eq_ok
  case spelled => repeat' constructor
  decide +kernel

/-- The rule of a phrase. -/
def Phrase.rule : Phrase → Nat
  | alternation => 1
  | concatenation => 2
  | repetition => 3
  | primary => 5

/-- What is known of the tokens of a pattern. -/
structure Known (token : Token) : Prop where
  /-- The text of a sign is that of its type. -/
  marked : ∀ sign, token.type = Text.quote sign → token.lexeme = sign ∧ token.str? = none
  /-- The others stand for a text. -/
  atom : token.type ∈ ["identifier", "decimal_integer", "escaped_string"] → IsAtom token

/-- Whether a tree is shaken to a phrase. -/
def ShakesTo (kind : Phrase) (raw : Tree) : Prop :=
  ∃ t, ({} : Shake).shakeInner raw = [t] ∧ IsPhrase kind t

/-- Whether all phrases of a kind that are smaller than a tree are shaken to such phrases. -/
def BelowShake (kind : Phrase) (raw : Tree) : Prop :=
  ∀ u, sizeOf u < sizeOf raw → readGrammar.Derives (.rule kind.rule) u → u.label = none →
    (∀ token ∈ u.tokens, Known token) → ShakesTo kind u

/-! ## What shaking leaves of the trees of the grammar -/

section

variable {raw : Tree}

/-- A token that was asked for by its text. -/
theorem exists_sign {text : String} {t : Tree} (h : readGrammar.DerivesTerm (word text) t)
    (known : ∀ token ∈ t.tokens, Known token) :
    ∃ token, t = signTree text token ∧ token.lexeme = text ∧ token.str? = none := by
  obtain ⟨derived, label⟩ := h.of_once rfl
  obtain ⟨token, eq, type⟩ := derived.of_terminal
  rw [label] at eq
  subst eq
  refine ⟨token, rfl, (known token ?_).marked text type⟩
  rw [Tree.tokens_leaf]
  exact List.mem_singleton_self _

theorem shakeInner_leaf (name : String) (label terminal : Option String) (token : Token) :
    ({} : Shake).shakeInner (.leaf name label terminal token) = [.leaf name label terminal token] := by
  rw [Shake.shakeInner]

theorem shakeList_nil : ({} : Shake).shakeList [] = [] := by rw [Shake.shakeList]

theorem shakeList_cons {t u : Tree} {ts us : List Tree} (first : ({} : Shake).shakeInner t = [u])
    (others : ({} : Shake).shakeList ts = us) : ({} : Shake).shakeList (t :: ts) = u :: us := by
  rw [Shake.shakeList, first, others]
  rfl

theorem shakeInner_node {name : String} {choice : Option Nat} {ts us : List Tree}
    (kept : ({} : Shake).isSpliced name = false) (shaken : ({} : Shake).shakeList ts = us) :
    ({} : Shake).shakeInner (.node name none choice ts) = [.node name none choice us] := by
  rw [Shake.shakeInner_kept kept rfl, shaken]

/-- A tree that stays is a phrase if it is one with what is left below it. -/
theorem ShakesTo.kept {kind : Phrase} {name : String} {choice : Option Nat} {ts us : List Tree}
    (kept : ({} : Shake).isSpliced name = false) (shaken : ({} : Shake).shakeList ts = us)
    (phrase : IsPhrase kind (.node name none choice us)) :
    ShakesTo kind (.node name none choice ts) :=
  ⟨_, shakeInner_node kept shaken, phrase⟩

theorem shakesTo_literal {t : Tree} (derived : readGrammar.Derives (.rule 6) t)
    (unlabeled : t.label = none) (known : ∀ token ∈ t.tokens, Known token) :
    ∃ choice token, t = .node "literal" none choice [.leaf token.type none none token]
      ∧ IsAtom token := by
  obtain ⟨index, terms, children, eq, among, derived⟩ := derived.of_choice rfl
  rw [unlabeled] at eq
  subst eq
  have kinds : ∃ type ∈ ["identifier", "decimal_integer", "escaped_string"],
      terms = [{ symbol := .terminal type }] := by
    rcases index with _ | _ | _ | index
    · exact ⟨_, by simp, (Option.some.inj among).symm⟩
    · exact ⟨_, by simp, (Option.some.inj among).symm⟩
    · exact ⟨_, by simp, (Option.some.inj among).symm⟩
    · cases among
  obtain ⟨type, mem, rfl⟩ := kinds
  obtain ⟨leaf, others, rfl, isLeaf, derived⟩ := derived.of_cons
  obtain rfl := derived.of_nil
  obtain ⟨derivedLeaf, bare⟩ := isLeaf.of_once rfl
  obtain ⟨token, eq, rfl⟩ := derivedLeaf.of_terminal
  rw [bare] at eq
  subst eq
  exact ⟨_, token, rfl, (known token (by simp)).atom mem⟩

theorem shakesTo_primary (derived : readGrammar.Derives (.rule 5) raw) (unlabeled : raw.label = none)
    (known : ∀ token ∈ raw.tokens, Known token) (below : BelowShake .alternation raw) :
    ShakesTo .primary raw := by
  obtain ⟨index, terms, children, eq, among, derived⟩ := derived.of_choice rfl
  rw [unlabeled] at eq
  subst eq
  rw [Tree.tokens_node] at known
  rcases index with _ | _ | _ | index
  · obtain rfl := Option.some.inj among
    obtain ⟨literal, others, rfl, isLiteral, derived⟩ := derived.of_cons
    obtain rfl := derived.of_nil
    obtain ⟨derivedLiteral, bare⟩ := isLiteral.of_once rfl
    obtain ⟨choice, token, rfl, atom⟩ := shakesTo_literal derivedLiteral bare (by simpa using known)
    have shaken : ({} : Shake).shakeInner (.node "literal" none choice
        [.leaf token.type none none token]) =
        [.node "literal" none choice [.leaf token.type none none token]] :=
      shakeInner_node rfl (shakeList_cons (shakeInner_leaf ..) shakeList_nil)
    exact .kept rfl (shakeList_cons shaken shakeList_nil) (.literal atom)
  · obtain rfl := Option.some.inj among
    obtain ⟨dot, others, rfl, isDot, derived⟩ := derived.of_cons
    obtain rfl := derived.of_nil
    obtain ⟨derivedDot, bare⟩ := isDot.of_once rfl
    obtain ⟨token, eq, type⟩ := derivedDot.of_alias rfl
    rw [bare] at eq
    subst eq
    exact .kept rfl (shakeList_cons (shakeInner_leaf ..) shakeList_nil)
      (.any ((known token (by simp)).marked "." type).2)
  · obtain rfl := Option.some.inj among
    obtain ⟨left, others, rfl, isLeft, derived⟩ := derived.of_cons
    obtain ⟨inner, others, rfl, isInner, derived⟩ := derived.of_cons
    obtain ⟨right, others, rfl, isRight, derived⟩ := derived.of_cons
    obtain rfl := derived.of_nil
    simp only [List.flatMap_cons, List.flatMap_nil, List.append_nil, List.forall_mem_append] at known
    obtain ⟨l, rfl, opens, plain⟩ := exists_sign isLeft known.1
    obtain ⟨r, rfl, closes, -⟩ := exists_sign isRight known.2.2
    obtain ⟨derivedInner, bare⟩ := isInner.of_once rfl
    obtain ⟨t, shaken, phrase⟩ := below inner (by simp; omega) derivedInner bare known.2.1
    exact .kept rfl (shakeList_cons (shakeInner_leaf ..) (shakeList_cons shaken
      (shakeList_cons (shakeInner_leaf ..) shakeList_nil))) (.group opens closes plain phrase)
  · cases among

/-- A sign of repetition. -/
theorem exists_quantifier {q : Tree} (derived : readGrammar.Derives (.rule 4) q)
    (unlabeled : q.label = none) (known : ∀ token ∈ q.tokens, Known token) :
    ∃ (choice : Option Nat) (m : Multiplicity) (token : Token),
      q = .node "quantifier" none choice [signTree m.suffix token] ∧ m ≠ .one
        ∧ token.lexeme = m.suffix := by
  obtain ⟨index, terms, children, eq, among, derived⟩ := derived.of_choice rfl
  rw [unlabeled] at eq
  subst eq
  have kinds : ∃ m : Multiplicity, m ≠ .one ∧ terms = [word m.suffix] := by
    rcases index with _ | _ | _ | index
    · exact ⟨.star, nofun, (Option.some.inj among).symm⟩
    · exact ⟨.plus, nofun, (Option.some.inj among).symm⟩
    · exact ⟨.optional, nofun, (Option.some.inj among).symm⟩
    · cases among
  obtain ⟨m, many, rfl⟩ := kinds
  obtain ⟨leaf, others, rfl, isLeaf, derived⟩ := derived.of_cons
  obtain rfl := derived.of_nil
  obtain ⟨token, rfl, text, -⟩ := exists_sign isLeaf (by simpa using known)
  exact ⟨_, m, token, rfl, many, text⟩

/-- What a rule several times is shaken to, and what is known of it. -/
theorem exists_items {id : Nat} {m : Multiplicity} {t : Tree}
    (h : readGrammar.DerivesTerm { one id with multiplicity := m } t) (many : m ≠ .one)
    (known : ∀ token ∈ t.tokens, Known token) :
    ∃ items, ({} : Shake).shakeInner t = ({} : Shake).shakeList items ∧ m.Admits items.length
      ∧ ∀ u ∈ items, sizeOf u < sizeOf t ∧ readGrammar.Derives (.rule id) u ∧ u.label = none
        ∧ ∀ token ∈ u.tokens, Known token := by
  obtain ⟨items, rfl, admits, each, bare⟩ := h.of_often many
  have spliced (name : String) : ({} : Shake).isSpliced (name ++ m.suffix) := by
    rw [Shake.isSpliced, isGenerated_suffix many, Bool.true_or]
  refine ⟨items, Shake.shakeInner_spliced (spliced _), admits, fun u mem => ?_⟩
  refine ⟨?_, each u mem, bare u mem, fun token mem' => known token ?_⟩
  · have := List.sizeOf_lt_of_mem mem
    simp
    omega
  · rw [Tree.tokens_node]
    exact List.mem_flatMap.2 ⟨u, mem, mem'⟩

theorem shakesTo_repetition (derived : readGrammar.Derives (.rule 3) raw)
    (unlabeled : raw.label = none) (known : ∀ token ∈ raw.tokens, Known token)
    (below : BelowShake .primary raw) : ShakesTo .repetition raw := by
  obtain ⟨children, eq, parts⟩ := derived.of_only rfl
  rw [unlabeled] at eq
  subst eq
  obtain ⟨atom, others, rfl, isAtom, parts⟩ := parts.of_cons
  obtain ⟨signs, others, rfl, areSigns, parts⟩ := parts.of_cons
  obtain rfl := parts.of_nil
  rw [Tree.tokens_node] at known
  simp only [List.flatMap_cons, List.flatMap_nil, List.append_nil, List.forall_mem_append] at known
  obtain ⟨derivedAtom, bare⟩ := isAtom.of_once rfl
  obtain ⟨t, shaken, phrase⟩ := below atom (by simp; omega) derivedAtom bare known.1
  obtain ⟨items, last, few, each⟩ := exists_items areSigns nofun known.2
  have whole {us : List Tree} (shakenItems : ({} : Shake).shakeList items = us) :
      ({} : Shake).shakeList [atom, signs] = t :: us := by
    refine shakeList_cons shaken ?_
    rw [Shake.shakeList, last, shakeList_nil, List.append_nil, shakenItems]
  rcases items with _ | ⟨q, _ | ⟨q', items⟩⟩
  · exact .kept rfl (whole shakeList_nil) (.once phrase)
  · obtain ⟨-, derivedSign, bareSign, knownSign⟩ := each q (List.mem_singleton_self _)
    obtain ⟨choice, m, token, rfl, many, sign⟩ := exists_quantifier derivedSign bareSign knownSign
    have leaf : ({} : Shake).shakeList [signTree m.suffix token] = [signTree m.suffix token] :=
      shakeList_cons (shakeInner_leaf ..) shakeList_nil
    exact .kept rfl (whole (shakeList_cons (shakeInner_node rfl leaf) shakeList_nil))
      (.often phrase many sign)
  · exact absurd few (by simp [Multiplicity.Admits])

theorem shakesTo_concatenation (derived : readGrammar.Derives (.rule 2) raw)
    (unlabeled : raw.label = none) (known : ∀ token ∈ raw.tokens, Known token)
    (below : BelowShake .repetition raw) : ShakesTo .concatenation raw := by
  obtain ⟨children, eq, parts⟩ := derived.of_only rfl
  rw [unlabeled] at eq
  subst eq
  obtain ⟨several, others, rfl, areItems, parts⟩ := parts.of_cons
  obtain rfl := parts.of_nil
  rw [Tree.tokens_node, List.flatMap_singleton] at known
  obtain ⟨items, spliced, -, each⟩ := exists_items areItems nofun known
  have phrases : ∃ ts, ({} : Shake).shakeList items = ts ∧ ∀ t ∈ ts, IsPhrase .repetition t := by
    have shaken : ∀ u ∈ items, ShakesTo .repetition u := by
      intro u mem
      obtain ⟨less, derived, bare, known⟩ := each u mem
      exact below u (by simp; omega) derived bare known
    clear each spliced
    induction items with
    | nil => exact ⟨[], shakeList_nil, List.forall_mem_nil _⟩
    | cons u items ih =>
      obtain ⟨⟨t, first, phrase⟩, others⟩ := List.forall_mem_cons.1 shaken
      obtain ⟨ts, rest, phrases⟩ := ih others
      exact ⟨t :: ts, shakeList_cons first rest, List.forall_mem_cons.2 ⟨phrase, phrases⟩⟩
  obtain ⟨ts, shaken, phrases⟩ := phrases
  refine .kept rfl ?_ (.concatenation phrases)
  rw [Shake.shakeList, spliced, shaken, shakeList_nil, List.append_nil]

/-- A sign of alternatives with what comes after it. -/
theorem exists_branch {u : Tree} (derived : readGrammar.Derives (.rule 8) u) (unlabeled : u.label = none)
    (known : ∀ token ∈ u.tokens, Known token) (below : BelowShake .concatenation u) :
    ∃ k : Token × Tree, ({} : Shake).shakeInner u = branchTrees k ∧ k.1.lexeme = "|"
      ∧ IsPhrase .concatenation k.2 := by
  obtain ⟨children, eq, parts⟩ := derived.of_only rfl
  rw [unlabeled] at eq
  subst eq
  obtain ⟨sign, others, rfl, isSign, parts⟩ := parts.of_cons
  obtain ⟨row, others, rfl, isRow, parts⟩ := parts.of_cons
  obtain rfl := parts.of_nil
  rw [Tree.tokens_node] at known
  simp only [List.flatMap_cons, List.flatMap_nil, List.append_nil, List.forall_mem_append] at known
  obtain ⟨token, rfl, text, -⟩ := exists_sign isSign known.1
  obtain ⟨derivedRow, bare⟩ := isRow.of_once rfl
  obtain ⟨t, shaken, phrase⟩ := below row (by simp; omega) derivedRow bare known.2
  refine ⟨(token, t), ?_, text, phrase⟩
  rw [Shake.shakeInner_spliced rfl]
  exact shakeList_cons (shakeInner_leaf ..) (shakeList_cons shaken shakeList_nil)

theorem shakesTo_alternation (derived : readGrammar.Derives (.rule 1) raw)
    (unlabeled : raw.label = none) (known : ∀ token ∈ raw.tokens, Known token)
    (below : BelowShake .concatenation raw) : ShakesTo .alternation raw := by
  obtain ⟨children, eq, parts⟩ := derived.of_only rfl
  rw [unlabeled] at eq
  subst eq
  obtain ⟨row, others, rfl, isRow, parts⟩ := parts.of_cons
  obtain ⟨several, others, rfl, areItems, parts⟩ := parts.of_cons
  obtain rfl := parts.of_nil
  rw [Tree.tokens_node] at known
  simp only [List.flatMap_cons, List.flatMap_nil, List.append_nil, List.forall_mem_append] at known
  obtain ⟨derivedRow, bare⟩ := isRow.of_once rfl
  obtain ⟨t, first, phrase⟩ := below row (by simp; omega) derivedRow bare known.1
  obtain ⟨items, spliced, -, each⟩ := exists_items areItems nofun known.2
  -- the repetition gives one branch for each round, with its bar
  have branches : ∃ ks : List (Token × Tree), ({} : Shake).shakeList items = ks.flatMap branchTrees
      ∧ (∀ k ∈ ks, k.1.lexeme = "|") ∧ ∀ k ∈ ks, IsPhrase .concatenation k.2 := by
    have shaken : ∀ u ∈ items, ∃ k : Token × Tree, ({} : Shake).shakeInner u = branchTrees k
        ∧ k.1.lexeme = "|" ∧ IsPhrase .concatenation k.2 := by
      intro u mem
      obtain ⟨less, derived, bare, known⟩ := each u mem
      exact exists_branch derived bare known fun v less' => below v (by simp; omega)
    clear each spliced
    induction items with
    | nil => exact ⟨[], shakeList_nil, List.forall_mem_nil _, List.forall_mem_nil _⟩
    | cons u items ih =>
      obtain ⟨⟨k, first, sign, phrase⟩, others⟩ := List.forall_mem_cons.1 shaken
      obtain ⟨ks, rest, signs, phrases⟩ := ih others
      refine ⟨k :: ks, ?_, List.forall_mem_cons.2 ⟨sign, signs⟩,
        List.forall_mem_cons.2 ⟨phrase, phrases⟩⟩
      rw [Shake.shakeList, first, rest, List.flatMap_cons]
  obtain ⟨ks, shaken, signs, phrases⟩ := branches
  refine .kept rfl (shakeList_cons first ?_) (.alternation phrase signs phrases)
  rw [Shake.shakeList, spliced, shaken, shakeList_nil, List.append_nil]

/-- **What shaking leaves of a phrase** is a phrase. -/
theorem shakesTo (kind : Phrase) (derived : readGrammar.Derives (.rule kind.rule) raw)
    (unlabeled : raw.label = none) (known : ∀ token ∈ raw.tokens, Known token) :
    ShakesTo kind raw := by
  induction size : sizeOf raw using Nat.strong_induction_on generalizing kind raw with
  | _ n ih =>
    subst size
    have below (kind' : Phrase) : BelowShake kind' raw :=
      fun u less derived unlabeled known => ih (sizeOf u) less kind' derived unlabeled known rfl
    cases kind with
    | alternation => exact shakesTo_alternation derived unlabeled known (below .concatenation)
    | concatenation => exact shakesTo_concatenation derived unlabeled known (below .repetition)
    | repetition => exact shakesTo_repetition derived unlabeled known (below .primary)
    | primary => exact shakesTo_primary derived unlabeled known (below .alternation)

end

/-! ## Sources -/

theorem quote_ne (text : String) : ∀ kind ∈ ["identifier", "decimal_integer", "escaped_string"],
    Text.quote text ≠ kind := by
  have plain : ∀ kind ∈ ["identifier", "decimal_integer", "escaped_string"],
      kind.toList.head? ≠ some '"' := by decide
  intro kind mem eq
  refine plain kind mem ?_
  rw [← eq, Text.quote, String.toList_ofList]
  rfl

/-- What the tokens of a pattern are like, if the texts in quotes have valid escapes. -/
theorem known_of_whole {token : Token} (whole : lexicon.Whole token)
    (valid : token.type = "escaped_string" → token.str?.isSome) : Known token := by
  have solid : token.lexeme ≠ "" := fun empty => whole.ne_nil (by rw [empty]; rfl)
  obtain ⟨s, mem, agrees, reaches⟩ := whole.exists_token
  have is := Token.agrees_iff.1 agrees
  have type : token.type = s.entry.name := congrArg Token.type is
  have literal : token.literal = s.entry.rule.value? token.lexeme := congrArg Token.literal is
  have named (kind : String) (isKind : token.type = kind)
      (mem : kind ∈ ["identifier", "decimal_integer", "escaped_string"])
      (plain : kind ≠ "escaped_string" → token.str? = none) : Known token := by
    constructor
    · exact fun sign eq => absurd (eq.symm.trans isKind) (quote_ne sign kind mem)
    · exact fun _ => ⟨isKind ▸ mem, fun ne => ⟨plain (isKind ▸ ne), solid⟩, valid⟩
  cases s with
  | exact text =>
    constructor
    · intro sign eq
      obtain rfl := Text.quote_injective (type.symm.trans eq)
      refine ⟨?_, by rw [Token.str?, literal]; rfl⟩
      exact (String.toList_inj.1 (Lexicon.Shape.exact_of_reach? reaches)).symm
    · intro mem'
      exact absurd type.symm (quote_ne text _ mem')
  | identifier => exact named "identifier" type (by simp) fun _ => by rw [Token.str?, literal]; rfl
  | integer =>
    refine named "decimal_integer" type (by simp) fun _ => ?_
    replace literal : token.literal = (Text.signed? 64 token.lexeme.toList).map Literal.int := literal
    rw [Token.str?, literal]
    cases Text.signed? 64 token.lexeme.toList <;> rfl
  | string => exact named "escaped_string" type (by simp) fun ne => absurd rfl ne
  | regex => exact absurd mem (by decide)

/-- **A pattern that is read** is the tree of one phrase, as long as its texts in quotes have valid
escapes. -/
theorem exists_phrase {source : String} {t : Tree} (parsed : language.parseShaken source = .ok t)
    (valid : ∀ token ∈ t.tokens, token.type = "escaped_string" → token.str?.isSome) :
    ∃ choice u, t = .node "regex" none choice [u] ∧ IsPhrase .alternation u := by
  obtain ⟨raw, read, rfl⟩ := Except.map_eq_ok.1 parsed
  have grammar : language.grammar? = .ok readGrammar := grammar_eq_readGrammar
  obtain ⟨ts, cut, parsed⟩ := (Language.parse_eq_ok grammar rfl).1 read
  obtain ⟨derived, unlabeled, -⟩ := Grammar.parseTokens_sound parsed
  have tokens := Grammar.tokens_of_parseTokens (by decide +kernel) parsed
  rw [Language.shake, Shake.tokens_shake rfl, tokens] at valid
  have known : ∀ token ∈ raw.tokens, Known token := by
    rw [tokens]
    exact fun token mem =>
      known_of_whole (Lexicon.whole_of_tokensFrom cut token mem) (valid token mem)
  obtain ⟨children, eq, parts⟩ := derived.of_only rfl
  rw [unlabeled] at eq
  subst eq
  obtain ⟨inner, others, rfl, isInner, parts⟩ := parts.of_cons
  obtain rfl := parts.of_nil
  rw [Tree.tokens_node, List.flatMap_singleton] at known
  obtain ⟨derivedInner, bare⟩ := isInner.of_once rfl
  obtain ⟨u, shaken, phrase⟩ := shakesTo .alternation derivedInner bare known
  refine ⟨some 0, u, ?_, phrase⟩
  show ({} : Shake).shake _ = _
  rw [Shake.shake, shakeList_cons shaken shakeList_nil]
  rfl

end Polyglot.Pattern
