import Polyglot.Proofs.Parsing.Parts
import Polyglot.Proofs.Pattern.Phrases
import Polyglot.Proofs.Regex.Denoting
import Polyglot.Proofs.Regex.Reading

/-!
# Reading what patterns are lowered to

The written form of a phrase is glued together from those of its parts. Here it is read back: each
kind of phrase puts parts in hand that denote what the phrase means, whatever is in hand
before (`Pattern.Phrase.IsRead`), by induction on the phrase (`Pattern.isRead`).

**A sign of repetition takes the last part in hand.** So what it follows has to be exactly one
part. The point and a group are, and so is a literal of one character. A longer literal is put in
a group for that reason, but an empty one is not: it puts nothing in hand, and the sign takes
whatever was there before. That case is left out (`Pattern.repeatsNothing`).

**Two levels for each bracket.** The written form is nested more deeply than the pattern, since
rows, alternatives and repetitions are levels too. What is in hand is kept with a bound on its
depth.
-/

namespace Polyglot.Pattern

open Regex (Nested Reading RowDenotes rowOf)
open Regex.Reading (LeadsTo)

/-! ## Written forms -/

/-- The characters of the written form of a tree. -/
def written (t : Tree) : List Char := (lower t).toList

theorem toList_join_lowerList (ts : List Tree) :
    (String.join (lowerList ts)).toList = ts.flatMap written := by
  induction ts with
  | nil => rw [lowerList]; rfl
  | cons t ts ih =>
    rw [lowerList, String.join_cons, String.toList_append, ih]
    rfl

/-- What begins with no bracket is a row. -/
theorem toList_joinGroup {ts : List Tree} (bare : ∀ u ∈ ts.head?, isSign u "(" = false) :
    (joinGroup ts (lowerList ts)).toList = ts.flatMap written := by
  rw [← toList_join_lowerList]
  unfold joinGroup
  split
  · rename_i left inner right first second last eq
    rw [bare left rfl, Bool.false_and, if_neg Bool.false_ne_true, eq]
    simp [String.toList_append, String.join_cons]
  · rfl

theorem written_row {name : String} {label : Option String} {choice : Option Nat} {ts : List Tree}
    (plain : name ∉ ["any", "repetition"]) (bare : ∀ u ∈ ts.head?, isSign u "(" = false) :
    written (.node name label choice ts) = ts.flatMap written := by
  simp only [List.mem_cons, List.not_mem_nil, or_false, not_or] at plain
  rw [written, lower, if_neg (by simpa using plain.1), if_neg (by simpa using plain.2)]
  exact toList_joinGroup bare

theorem written_group {choice : Option Nat} {left right : Token} {t : Tree}
    (opens : left.lexeme = "(") (closes : right.lexeme = ")") :
    written (.node "primary" none choice [signTree "(" left, t, signTree ")" right])
      = '(' :: '?' :: ':' :: (written t ++ [')']) := by
  have signs : isSign (signTree "(" left) "(" && isSign (signTree ")" right) ")" := by
    simp [isSign, signTree, Tree.token?, opens, closes]
  rw [written, lower, if_neg (by decide), if_neg (by decide), lowerList, lowerList, lowerList,
    lowerList, joinGroup, if_pos signs, String.toList_append, String.toList_append, List.append_assoc]
  rfl

theorem written_mark {sign : String} {token : Token} (is : sign ∈ ["|", "*", "+", "?"])
    (text : token.lexeme = sign) : written (signTree sign token) = sign.toList := by
  rw [written, signTree, lower, lowerLeaf, text]
  simp only [List.mem_cons, List.not_mem_nil, or_false] at is
  rcases is with rfl | rfl | rfl | rfl <;> rfl

theorem written_single {name : String} {label : Option String} {choice : Option Nat} {t : Tree}
    (plain : name ∉ ["any", "repetition"]) : written (.node name label choice [t]) = written t := by
  simp only [List.mem_cons, List.not_mem_nil, or_false, not_or] at plain
  rw [written, lower, if_neg (by simpa using plain.1), if_neg (by simpa using plain.2)]
  show (String.join (lowerList [t])).toList = _
  rw [toList_join_lowerList, List.flatMap_singleton]

theorem written_once {label : Option String} {choice : Option Nat} {t : Tree} :
    written (.node "repetition" label choice [t]) = written t := by
  rw [written, lower, if_neg (by decide), if_pos (by decide), lowerList, lowerList, joinRepetition]
  rfl

theorem written_any {label terminal : Option String} {token : Token} :
    written (.leaf "any" label terminal token) = ['.'] := by
  rw [written, lower, lowerLeaf, if_pos (by decide)]
  rfl

theorem joinRepetition_pair (long : Bool) (atom sign : String) : joinRepetition long [atom, sign]
    = if long then "(?:" ++ atom ++ ")" ++ String.join [sign] else atom ++ String.join [sign] :=
  rfl

/-- The sign of a repetition follows the primary, which is in brackets if it is a long literal. -/
theorem written_often {choice choice' : Option Nat} {t : Tree} {m : Multiplicity} {token : Token}
    (many : m ≠ .one) (sign : token.lexeme = m.suffix) :
    written (.node "repetition" none choice
      [t, .node "quantifier" none choice' [signTree m.suffix token]])
      = (if isLongLiteral t then '(' :: '?' :: ':' :: (written t ++ [')']) else written t)
        ++ m.suffix.toList := by
  have known : m.suffix ∈ ["|", "*", "+", "?"] := by
    cases m <;> first | exact absurd rfl many | decide
  have quantifier : written (.node "quantifier" none choice' [signTree m.suffix token])
      = m.suffix.toList := by rw [written_single (by decide), written_mark known sign]
  have last : (String.join [lower (.node "quantifier" none choice' [signTree m.suffix token])]).toList
      = m.suffix.toList := by
    rw [String.join_cons, String.toList_append]
    exact (List.append_nil _).trans quantifier
  rw [written, lower, if_neg (by decide), if_pos (by decide), lowerList, lowerList, lowerList,
    joinRepetition_pair, List.head?_cons, Option.any_some]
  split
  · rw [String.toList_append, String.toList_append, String.toList_append, last]
    rfl
  · rw [String.toList_append, last]
    rfl

theorem written_literal {choice choice' : Option Nat} {token : Token} (atom : IsAtom token) :
    written (.node "primary" none choice
      [.node "literal" none choice' [.leaf token.type none none token]])
      = (Regex.escape (atomText token)).toList := by
  rw [written_single (by decide), written_single (by decide), written, lower, lowerLeaf]
  have kinds := atom.kind
  simp only [List.mem_cons, List.not_mem_nil, or_false] at kinds
  rcases kinds with kind | kind | kind <;> (rw [kind]; rfl)

/-! ## Meanings -/

theorem meanings_mark {t : Tree} {ts : List Tree} (mark : isMark t = true) :
    meanings (t :: ts) = meanings ts := by
  rw [meanings, if_pos mark]

theorem meanings_solid {t : Tree} {ts : List Tree} (solid : isMark t = false) :
    meanings (t :: ts) = meaning t :: meanings ts := by
  rw [meanings, solid, if_neg Bool.false_ne_true]

theorem meanings_nil : meanings [] = [] := by rw [meanings]

theorem isMark_signTree {sign : String} {token : Token} (is : sign ∈ ["|", "(", ")"]) :
    isMark (signTree sign token) = true := by
  simp only [List.mem_cons, List.not_mem_nil, or_false] at is
  rcases is with rfl | rfl | rfl <;> rfl

theorem meanings_eq_map {ts : List Tree} (solid : ∀ t ∈ ts, isMark t = false) :
    meanings ts = ts.map meaning := by
  induction ts with
  | nil => exact meanings_nil
  | cons t ts ih =>
    obtain ⟨first, others⟩ := List.forall_mem_cons.1 solid
    rw [meanings_solid first, ih others, List.map_cons]

/-- Without a sign of repetition. -/
theorem meaning_row {name : String} {label : Option String} {choice : Option Nat} {ts : List Tree}
    (other : name ≠ "alternation") (single : ∀ t ∈ ts, t.name ≠ "quantifier") :
    meaning (.node name label choice ts) = (meanings ts).prod := by
  have once : multiplicity ts = .one := by
    unfold multiplicity
    rw [List.find?_eq_none.2 (by simpa using single)]
    rfl
  rw [meaning, if_neg (by simpa using other), once, repeatedBy]

theorem meaning_single {name : String} {label : Option String} {choice : Option Nat} {t : Tree}
    (other : name ≠ "alternation") (solid : isMark t = false) :
    meaning (.node name label choice [t]) = meaning t := by
  have single : t.name ≠ "quantifier" := by
    intro eq
    rw [isMark, eq] at solid
    exact absurd solid (by decide)
  rw [meaning_row other (List.forall_mem_singleton.2 single),
    meanings_eq_map (List.forall_mem_singleton.2 solid), List.map_singleton, List.prod_singleton]

theorem meaningOfLeaf_atom {token : Token} (atom : IsAtom token) :
    meaningOfLeaf token.type token = only (atomText token) := by
  by_cases quoted : token.type = "escaped_string"
  · obtain ⟨s, is⟩ := Option.isSome_iff_exists.1 (atom.valid quoted)
    rw [meaningOfLeaf, quoted, if_neg (by decide), if_pos (by decide), atomText, is]
    rfl
  · have other : token.type ≠ "any" := by
      intro eq
      have kinds := atom.kind
      rw [eq] at kinds
      exact absurd kinds (by decide)
    rw [meaningOfLeaf, if_neg (by simpa using other), if_neg (by simpa using quoted), atomText,
      (atom.plain quoted).1]
    rfl

/-- A literal means its text. -/
theorem meaning_literal {choice choice' : Option Nat} {token : Token} (atom : IsAtom token) :
    meaning (.node "primary" none choice
      [.node "literal" none choice' [.leaf token.type none none token]])
      = only (atomText token) := by
  have solid : isMark (.leaf token.type none none token) = false := by
    have kinds := atom.kind
    simp only [List.mem_cons, List.not_mem_nil, or_false] at kinds
    rw [isMark, Tree.name]
    rcases kinds with kind | kind | kind <;> (rw [kind]; decide)
  rw [meaning_single (by decide) rfl, meaning_single (by decide) solid, meaning,
    meaningOfLeaf_atom atom]

theorem meaning_any {choice : Option Nat} {terminal : Option String} {token : Token} :
    meaning (.node "primary" none choice [.leaf "any" none terminal token])
      = oneInLine := by
  rw [meaning_single (by decide) rfl, meaning, meaningOfLeaf, if_pos (by decide)]

/-- The name of a phrase. -/
def Phrase.name : Phrase → String
  | alternation => "alternation"
  | concatenation => "concatenation"
  | repetition => "repetition"
  | primary => "primary"

theorem IsPhrase.eq_node {kind : Phrase} {t : Tree} (phrase : IsPhrase kind t) :
    ∃ choice children, t = .node kind.name none choice children := by
  cases phrase <;> exact ⟨_, _, rfl⟩

theorem IsPhrase.isMark_eq_false {kind : Phrase} {t : Tree} (phrase : IsPhrase kind t) :
    isMark t = false := by
  obtain ⟨choice, children, rfl⟩ := phrase.eq_node
  cases kind <;> rfl

theorem IsPhrase.name_ne_quantifier {kind : Phrase} {t : Tree} (phrase : IsPhrase kind t) :
    t.name ≠ "quantifier" := by
  obtain ⟨choice, children, rfl⟩ := phrase.eq_node
  rw [Tree.name]
  cases kind <;> decide

theorem IsPhrase.isSign_eq_false {kind : Phrase} {t : Tree} (phrase : IsPhrase kind t)
    (text : String) : isSign t text = false := by
  obtain ⟨choice, children, rfl⟩ := phrase.eq_node
  rfl

/-- Brackets mean what is in them. -/
theorem meaning_group {choice : Option Nat} {left right : Token} {t : Tree}
    (inner : IsPhrase .alternation t) :
    meaning (.node "primary" none choice [signTree "(" left, t, signTree ")" right]) = meaning t := by
  have single : ∀ u ∈ [signTree "(" left, t, signTree ")" right], u.name ≠ "quantifier" := by
    refine List.forall_mem_cons.2 ⟨?_, List.forall_mem_cons.2 ⟨inner.name_ne_quantifier,
      List.forall_mem_singleton.2 ?_⟩⟩
    all_goals
      rw [signTree, Tree.name]
      decide
  rw [meaning_row (by decide) single, meanings_mark (isMark_signTree (by simp)),
    meanings_solid inner.isMark_eq_false, meanings_mark (isMark_signTree (by simp)), meanings_nil,
    List.prod_singleton]

/-- A sign of repetition applies to what it follows. -/
theorem meaning_often {choice choice' : Option Nat} {t : Tree} {m : Multiplicity} {token : Token}
    (atom : IsPhrase .primary t) (many : m ≠ .one) (sign : token.lexeme = m.suffix) :
    meaning (.node "repetition" none choice
      [t, .node "quantifier" none choice' [signTree m.suffix token]]) = repeatedBy m (meaning t) := by
  have text : (Tree.node "quantifier" none choice' [signTree m.suffix token]).text = m.suffix := by
    rw [Tree.text, Tree.solidTokens, Tree.tokens_node, List.flatMap_singleton, signTree,
      Tree.tokens_leaf, List.filter_cons_of_pos ?_]
    · simpa using sign
    · rw [Token.isEmpty, sign]
      cases m <;> first | exact absurd rfl many | decide
  have often : multiplicity [t, .node "quantifier" none choice' [signTree m.suffix token]] = m := by
    rw [multiplicity, List.find?_cons_of_neg (by simpa using atom.name_ne_quantifier),
      List.find?_cons_of_pos rfl, Option.bind_some, text, Multiplicity.ofSuffix?_suffix]
    rfl
  have mark : isMark (.node "quantifier" none choice' [signTree m.suffix token]) = true := rfl
  rw [meaning, if_neg (by decide), often, meanings_solid atom.isMark_eq_false, meanings_mark mark,
    meanings_nil, List.prod_singleton]

theorem meaning_concatenation {choice : Option Nat} {ts : List Tree}
    (each : ∀ t ∈ ts, IsPhrase .repetition t) :
    meaning (.node "concatenation" none choice ts) = (ts.map meaning).prod := by
  rw [meaning_row (by decide) fun t mem => (each t mem).name_ne_quantifier,
    meanings_eq_map fun t mem => (each t mem).isMark_eq_false]

theorem meaning_alternation {choice : Option Nat} {t : Tree} {ks : List (Token × Tree)}
    (first : IsPhrase .concatenation t) (others : ∀ k ∈ ks, IsPhrase .concatenation k.2) :
    meaning (.node "alternation" none choice (t :: ks.flatMap branchTrees))
      = meaning t + (ks.map (meaning ·.2)).sum := by
  have branches : meanings (ks.flatMap branchTrees) = ks.map (meaning ·.2) := by
    induction ks with
    | nil => exact meanings_nil
    | cons k ks ih =>
      obtain ⟨second, others⟩ := List.forall_mem_cons.1 others
      rw [List.flatMap_cons, branchTrees, List.cons_append, List.cons_append, List.nil_append,
        meanings_mark (isMark_signTree (by simp)), meanings_solid second.isMark_eq_false, ih others,
        List.map_cons]
  rw [meaning, if_pos (by decide), meanings_solid first.isMark_eq_false, branches, List.sum_cons]

/-! ## What is in hand -/

/-- The expression that a sign of repetition makes of the one before it. -/
def repeatedAs : Multiplicity → Regex → Regex
  | .one => id
  | .optional => Regex.repetition 0 (some 1) true
  | .star => Regex.repetition 0 none true
  | .plus => Regex.repetition 1 none true

theorem denotes_repeatedAs {r : Regex} {texts : Texts} (h : r.Denotes texts) (m : Multiplicity) :
    (repeatedAs m r).Denotes (repeatedBy m texts) := by
  cases m with
  | one => exact h
  | optional => exact h.optional true
  | star => exact h.star true
  | plus => exact h.plus true

/-- Whether no sign of laziness is at the front of a text. -/
def IsCalm (text : List Char) : Prop := text.head? ≠ some '?'

theorem IsCalm.append {text rest : List Char} (calm : IsCalm text) (calm' : IsCalm rest) :
    IsCalm (text ++ rest) := by
  cases text with
  | nil => exact calm'
  | cons c text => exact calm

theorem leadsTo_sign {room : Nat} {branches parts : List (Nested Regex)} {part : Nested Regex}
    {rest : List Char} {m : Multiplicity} (many : m ≠ .one) (calm : IsCalm rest) :
    LeadsTo room ⟨branches, part :: parts, m.suffix.toList ++ rest⟩
      ⟨branches, part.under (repeatedAs m) :: parts, rest⟩ := by
  cases m with
  | one => exact absurd rfl many
  | optional =>
    show LeadsTo room ⟨_, _, '?' :: rest⟩ _
    exact .sign (by simp) calm
  | star =>
    show LeadsTo room ⟨_, _, '*' :: rest⟩ _
    exact .sign (by simp) calm
  | plus =>
    show LeadsTo room ⟨_, _, '+' :: rest⟩ _
    exact .sign (by simp) calm

/-- Whether reading a text puts one part in hand, which denotes a set of texts. -/
def PutsPart (room depth : Nat) (text : List Char) (texts : Texts) : Prop :=
  ∃ part : Nested Regex, part.value.Denotes texts ∧ part.depth ≤ depth
    ∧ (∃ c rest, text = c :: rest ∧ c ≠ '?') ∧ ∀ branches parts rest,
      LeadsTo room ⟨branches, parts, text ++ rest⟩ ⟨branches, part :: parts, rest⟩

/-- Whether reading a text puts parts in hand that denote a set of texts together. -/
def PutsRow (room depth : Nat) (text : List Char) (texts : Texts) : Prop :=
  ∃ added : List (Nested Regex), RowDenotes added texts ∧ (∀ part ∈ added, part.depth ≤ depth)
    ∧ IsCalm text ∧ ∀ branches parts rest, IsCalm rest →
      LeadsTo room ⟨branches, parts, text ++ rest⟩ ⟨branches, added ++ parts, rest⟩

/-- Whether alternatives in hand denote a set of texts. -/
structure InHand (depth : Nat) (branches : List (Nested Regex)) (texts : Texts) : Prop where
  /-- Their sum is the set. -/
  denotes : ∃ sets, List.Forall₂ (fun branch set => Regex.Denotes branch.value set) branches sets
    ∧ sets.sum = texts
  /-- They are not too deep. -/
  shallow : ∀ branch ∈ branches, branch.depth ≤ depth

/-- Whether reading a text puts alternatives in hand that denote a set of texts. -/
def PutsBranches (room depth : Nat) (text : List Char) (texts : Texts) : Prop :=
  ∃ branches parts, InHand depth (rowOf parts :: branches) texts
    ∧ ∀ rest, IsCalm rest → LeadsTo room ⟨[], [], text ++ rest⟩ ⟨branches, parts, rest⟩

section

variable {room depth depth' : Nat} {text text' : List Char} {texts texts' : Texts}

theorem depth_join_le {α : Type} {build : List α → α} {parts : List (Nested α)}
    (shallow : ∀ part ∈ parts, part.depth ≤ depth) : (Nested.join build parts).depth ≤ depth + 1 := by
  have most (parts : List (Nested α)) (shallow : ∀ part ∈ parts, part.depth ≤ depth) (d : Nat)
      (le : d ≤ depth) : parts.foldl (fun d part => max d part.depth) d ≤ depth := by
    induction parts generalizing d with
    | nil => exact le
    | cons part parts ih =>
      obtain ⟨first, others⟩ := List.forall_mem_cons.1 shallow
      exact ih others _ (Nat.max_le.2 ⟨le, first⟩)
  unfold Nested.join
  split
  · exact Nat.zero_le _
  · exact Nat.le_succ_of_le (shallow _ (List.mem_singleton_self _))
  · exact Nat.succ_le_succ (most _ shallow 0 (Nat.zero_le _))

namespace PutsRow

theorem nil : PutsRow room depth [] 1 :=
  ⟨[], .nil, List.forall_mem_nil _, nofun, fun _ _ _ _ => .refl _⟩

theorem mono (h : PutsRow room depth text texts) (le : depth ≤ depth') :
    PutsRow room depth' text texts := by
  obtain ⟨added, denotes, shallow, calm, reads⟩ := h
  exact ⟨added, denotes, fun part mem => Nat.le_trans (shallow part mem) le, calm, reads⟩

theorem append (h : PutsRow room depth text texts) (h' : PutsRow room depth text' texts') :
    PutsRow room depth (text ++ text') (texts * texts') := by
  obtain ⟨added, denotes, shallow, calm, reads⟩ := h
  obtain ⟨added', denotes', shallow', calm', reads'⟩ := h'
  refine ⟨added' ++ added, denotes.append denotes', List.forall_mem_append.2 ⟨shallow', shallow⟩,
    calm.append calm', fun branches parts rest last => ?_⟩
  rw [List.append_assoc, List.append_assoc]
  exact (reads branches parts _ (calm'.append last)).trans (reads' branches _ rest last)

/-- A row is an alternative. -/
theorem branches (h : PutsRow room depth text texts) : PutsBranches room (depth + 1) text texts := by
  obtain ⟨added, denotes, shallow, -, reads⟩ := h
  refine ⟨[], added, ⟨⟨[texts], .cons denotes.denotes .nil, List.sum_singleton⟩,
    List.forall_mem_singleton.2 (depth_join_le shallow)⟩, fun rest calm => ?_⟩
  simpa using reads [] [] rest calm

end PutsRow

namespace PutsBranches

/-- One more alternative. -/
theorem or (h : PutsBranches room (depth + 1) text texts) (h' : PutsRow room depth text' texts') :
    PutsBranches room (depth + 1) (text ++ '|' :: text') (texts + texts') := by
  obtain ⟨branches, parts, ⟨⟨sets, denotes, rfl⟩, shallow⟩, reads⟩ := h
  obtain ⟨added, denotes', shallow', -, reads'⟩ := h'
  refine ⟨rowOf parts :: branches, added, ⟨⟨texts' :: sets, .cons denotes'.denotes denotes, ?_⟩,
    List.forall_mem_cons.2 ⟨depth_join_le shallow', shallow⟩⟩, fun rest calm => ?_⟩
  · rw [List.sum_cons, add_comm]
  · have last := reads' (rowOf parts :: branches) [] rest calm
    rw [List.append_nil] at last
    rw [List.append_assoc]
    exact ((reads _ (by simp [IsCalm])).trans .bar).trans last

/-- Alternatives in brackets are one part. -/
theorem group (h : PutsBranches room depth text texts) :
    PutsPart (room + 1) (depth + 2) ('(' :: '?' :: ':' :: (text ++ [')'])) texts := by
  obtain ⟨branches, parts, ⟨⟨sets, denotes, rfl⟩, shallow⟩, reads⟩ := h
  refine ⟨(Nested.join Regex.alternation (rowOf parts :: branches)).under id,
    Regex.denotes_join_alternation denotes, Nat.succ_le_succ (depth_join_le shallow),
    ⟨_, _, rfl, by decide⟩, fun branches' parts' rest => ?_⟩
  rw [List.cons_append, List.cons_append, List.cons_append, List.append_assoc]
  exact .group (reads (')' :: rest) (by simp [IsCalm]))

end PutsBranches

namespace PutsPart

theorem row (h : PutsPart room depth text texts) : PutsRow room depth text texts := by
  obtain ⟨part, denotes, shallow, ⟨c, rest, rfl, other⟩, reads⟩ := h
  refine ⟨[part], .single denotes, List.forall_mem_singleton.2 shallow, ?_,
    fun branches parts rest _ => reads branches parts rest⟩
  simpa [IsCalm] using other

/-- A part with a sign of repetition. -/
theorem often (h : PutsPart room depth text texts) {m : Multiplicity} (many : m ≠ .one) :
    PutsRow room (depth + 1) (text ++ m.suffix.toList) (repeatedBy m texts) := by
  obtain ⟨part, denotes, shallow, ⟨c, rest, rfl, other⟩, reads⟩ := h
  refine ⟨[part.under (repeatedAs m)], .single (denotes_repeatedAs denotes m),
    List.forall_mem_singleton.2 (Nat.succ_le_succ shallow), ?_, fun branches parts rest calm => ?_⟩
  · simpa [IsCalm] using other
  · rw [List.append_assoc]
    exact (reads branches parts _).trans (leadsTo_sign many calm)

theorem any : PutsPart room depth ['.'] oneInLine :=
  ⟨_, .anyInLine, Nat.zero_le _, ⟨_, _, rfl, by decide⟩, fun _ _ _ => .point⟩

end PutsPart

/-! ## Literals -/

theorem rowDenotes_chars (cs : List Char) :
    RowDenotes (cs.map fun c => (⟨.chars [c], 0⟩ : Nested Regex)).reverse {cs} := by
  induction cs with
  | nil => exact .nil
  | cons c cs ih =>
    have split : ({c :: cs} : Texts) = {[c]} * {cs} := by
      ext text
      rw [Language.mem_mul]
      constructor
      · rintro rfl
        exact ⟨[c], rfl, cs, rfl, rfl⟩
      · rintro ⟨_, rfl, _, rfl, rfl⟩
        rfl
    rw [List.map_cons, List.reverse_cons, split]
    exact .append (.single (.chars [c])) ih

/-- An escaped character is not taken for a sign of laziness. -/
theorem exists_escaped (c : Char) : ∃ d rest,
    (if c ∈ Regex.metaCharacters then ['\\', c] else [c]) = d :: rest ∧ d ≠ '?' := by
  split
  · exact ⟨_, _, rfl, by decide⟩
  · rename_i plain
    refine ⟨_, _, rfl, ?_⟩
    rintro rfl
    exact plain (by decide)

theorem isCalm_escape (text : String) : IsCalm (Regex.escape text).toList := by
  rw [Regex.escape, String.toList_ofList]
  cases text.toList with
  | nil => nofun
  | cons c cs =>
    obtain ⟨d, rest, eq, other⟩ := exists_escaped c
    rw [List.flatMap_cons, eq]
    simpa [IsCalm] using other

/-- A literal is a row of its characters. -/
theorem putsRow_escape (text : String) :
    PutsRow room depth (Regex.escape text).toList (only text) := by
  refine ⟨_, rowDenotes_chars text.toList, ?_, isCalm_escape text, fun branches parts rest _ => ?_⟩
  · simp
  · have reads := @LeadsTo.literal room branches parts rest text.toList
    rwa [String.ofList_toList] at reads

/-- A literal of one character is one part. -/
theorem putsPart_escape (c : Char) :
    PutsPart room depth (Regex.escape (String.ofList [c])).toList {[c]} := by
  obtain ⟨d, rest, eq, other⟩ := exists_escaped c
  refine ⟨⟨.chars [c], 0⟩, .chars [c], Nat.zero_le _, ⟨d, rest, ?_, other⟩,
    fun branches parts rest => .literal [c]⟩
  rw [Regex.escape, String.toList_ofList, String.toList_ofList, List.flatMap_singleton, eq]

/-- A literal in a group is one part. -/
theorem putsPart_group (text : String) : PutsPart (room + 1) 3
    ('(' :: '?' :: ':' :: ((Regex.escape text).toList ++ [')'])) (only text) :=
  (@putsRow_escape room 0 text).branches.group

end

/-! ## Phrases -/

/-- Whether reading what a phrase is lowered to puts in hand what it means, with so much room. A
literal is no single part, so a sign of repetition needs to know of it. -/
def Phrase.IsRead (room : Nat) : Phrase → Tree → Prop
  | primary, t =>
    (∃ choice choice' token, IsAtom token ∧ t = .node "primary" none choice
      [.node "literal" none choice' [.leaf token.type none none token]])
    ∨ isLongLiteral t = false ∧ PutsPart room (4 * nesting t + 3) (written t) (meaning t)
  | repetition, t => PutsRow room (4 * nesting t + 4) (written t) (meaning t)
  | concatenation, t => PutsRow room (4 * nesting t + 4) (written t) (meaning t)
  | alternation, t => PutsBranches room (4 * nesting t + 5) (written t) (meaning t)

/-- Whether no sign of repetition in a tree applies to a literal without characters. -/
def RepeatsSomething (t : Tree) : Prop := ∀ u ∈ t.parts, repeatsNothing u = false

theorem RepeatsSomething.of_mem {name : String} {label : Option String} {choice : Option Nat}
    {ts : List Tree} (h : RepeatsSomething (.node name label choice ts)) {t : Tree} (mem : t ∈ ts) :
    RepeatsSomething t := by
  intro u below
  refine h u ?_
  rw [Tree.parts]
  exact List.mem_cons_of_mem _ (Tree.mem_partsOfList.2 ⟨t, mem, below⟩)

theorem nesting_le_nestings {t : Tree} {ts : List Tree} (mem : t ∈ ts) : nesting t ≤ nestings ts := by
  induction ts with
  | nil => cases mem
  | cons u ts ih =>
    rw [nestings]
    rcases List.mem_cons.1 mem with rfl | mem
    · exact Nat.le_max_left ..
    · exact Nat.le_trans (ih mem) (Nat.le_max_right ..)

theorem nesting_le_of_mem {name : String} {label : Option String} {choice : Option Nat}
    {t : Tree} {ts : List Tree} (mem : t ∈ ts) : nesting t ≤ nesting (.node name label choice ts) := by
  rw [nesting]
  exact Nat.le_trans (nesting_le_nestings mem) (Nat.le_add_right ..)

theorem nesting_group {choice : Option Nat} {left right : Token} {t : Tree} :
    nesting (.node "primary" none choice [signTree "(" left, t, signTree ")" right])
      = nesting t + 1 := by
  have bracket : [signTree "(" left, t, signTree ")" right].head?.any (·.name == "\"(\"") = true := rfl
  rw [nesting, if_pos bracket, nestings, nestings, nestings, nestings, signTree, signTree, nesting,
    nesting]
  simp

/-- What has a sign of repetition is no literal without characters. -/
theorem ne_empty_of_often {choice choice' choice'' : Option Nat} {token : Token} {q : Tree}
    (atom : IsAtom token) (h : RepeatsSomething (.node "repetition" none choice
      [.node "primary" none choice' [.node "literal" none choice'' [.leaf token.type none none token]],
        q])) : atomText token ≠ "" := by
  intro empty
  have quoted : token.str? = some "" := by
    by_cases quoted : token.type = "escaped_string"
    · obtain ⟨text, is⟩ := Option.isSome_iff_exists.1 (atom.valid quoted)
      rw [atomText, is] at empty
      rw [is]
      exact congrArg some empty
    · obtain ⟨none, solid⟩ := atom.plain quoted
      rw [atomText, none] at empty
      exact absurd empty solid
  have nothing := h _ (Tree.self_mem_parts _)
  simp [repeatsNothing, Tree.name, Tree.children, quoted] at nothing

/-- A literal with a sign of repetition is put in brackets if it is long. -/
theorem putsRow_literal_often {room depth : Nat} {text : String} (solid : text ≠ "")
    {m : Multiplicity} (many : m ≠ .one) :
    PutsRow (room + 1) (depth + 4) ((if 1 < text.length then
      '(' :: '?' :: ':' :: ((Regex.escape text).toList ++ [')']) else (Regex.escape text).toList)
        ++ m.suffix.toList) (repeatedBy m (only text)) := by
  split
  · exact ((putsPart_group text).often many).mono (Nat.le_add_left ..)
  · rename_i short
    have one : ∃ c, text.toList = [c] := by
      refine List.length_eq_one_iff.1 (Nat.le_antisymm (Nat.not_lt.1 short) ?_)
      rw [Nat.one_le_iff_ne_zero]
      exact fun none => solid (String.toList_eq_nil_iff.1 (List.length_eq_zero_iff.1 none))
    obtain ⟨c, eq⟩ := one
    obtain rfl : text = String.ofList [c] := by rw [← eq, String.ofList_toList]
    rw [only, String.toList_ofList]
    exact ((putsPart_escape c).often many).mono (Nat.le_refl _)

theorem isLongLiteral_literal {choice choice' : Option Nat} {token : Token} :
    isLongLiteral (.node "primary" none choice
      [.node "literal" none choice' [.leaf token.type none none token]])
      = decide (1 < (atomText token).length) :=
  rfl

section

variable {room : Nat}

theorem isRead_once {choice : Option Nat} {t : Tree} (atom : IsPhrase .primary t)
    (read : Phrase.primary.IsRead room t) :
    Phrase.repetition.IsRead room (.node "repetition" none choice [t]) := by
  have le : nesting t ≤ nesting (.node "repetition" none choice [t]) :=
    nesting_le_of_mem List.mem_cons_self
  show PutsRow ..
  rw [written_once, meaning_single (by decide) atom.isMark_eq_false]
  obtain ⟨_, _, token, stands, rfl⟩ | ⟨-, part⟩ := read
  · rw [meaning_literal stands, written_literal stands]
    exact putsRow_escape _
  · exact part.row.mono (by omega)

theorem isRead_often {choice choice' : Option Nat} {t : Tree} {m : Multiplicity} {token : Token}
    (atom : IsPhrase .primary t) (many : m ≠ .one) (sign : token.lexeme = m.suffix)
    (something : RepeatsSomething (.node "repetition" none choice
      [t, .node "quantifier" none choice' [signTree m.suffix token]]))
    (read : Phrase.primary.IsRead (room + 1) t) :
    Phrase.repetition.IsRead (room + 1) (.node "repetition" none choice
      [t, .node "quantifier" none choice' [signTree m.suffix token]]) := by
  have le : nesting t ≤ nesting (.node "repetition" none choice
      [t, .node "quantifier" none choice' [signTree m.suffix token]]) :=
    nesting_le_of_mem List.mem_cons_self
  show PutsRow ..
  rw [written_often many sign, meaning_often atom many sign]
  obtain ⟨_, _, token, stands, rfl⟩ | ⟨short, part⟩ := read
  · rw [meaning_literal stands, written_literal stands, isLongLiteral_literal]
    simp only [decide_eq_true_eq]
    exact putsRow_literal_often (ne_empty_of_often stands something) many
  · rw [short, if_neg Bool.false_ne_true]
    exact (part.often many).mono (by omega)

theorem isRead_concatenation {choice : Option Nat} {ts : List Tree}
    (each : ∀ t ∈ ts, IsPhrase .repetition t) (read : ∀ t ∈ ts, Phrase.repetition.IsRead room t) :
    Phrase.concatenation.IsRead room (.node "concatenation" none choice ts) := by
  have bare : ∀ u ∈ ts.head?, isSign u "(" = false := fun u mem =>
    (each u (List.mem_of_mem_head? mem)).isSign_eq_false "("
  have row {depth : Nat} (le : ∀ t ∈ ts, 4 * nesting t + 4 ≤ depth) :
      PutsRow room depth (ts.flatMap written) (ts.map meaning).prod := by
    clear bare each
    induction ts with
    | nil => exact .nil
    | cons t ts ih =>
      obtain ⟨first, others⟩ := List.forall_mem_cons.1 read
      obtain ⟨le, le'⟩ := List.forall_mem_cons.1 le
      exact (PutsRow.mono first le).append (ih others le')
  show PutsRow ..
  rw [written_row (by decide) bare, meaning_concatenation each]
  refine row fun t mem => ?_
  have le : nesting t ≤ nesting (.node "concatenation" none choice ts) := nesting_le_of_mem mem
  omega

theorem mem_branches {t : Tree} {ks : List (Token × Tree)} {k : Token × Tree} (mem : k ∈ ks) :
    k.2 ∈ t :: ks.flatMap branchTrees :=
  List.mem_cons_of_mem _ (List.mem_flatMap.2 ⟨k, mem, by simp [branchTrees]⟩)

/-- More alternatives after their signs. -/
theorem putsBranches_others {depth : Nat} {ks : List (Token × Tree)}
    (signs : ∀ k ∈ ks, k.1.lexeme = "|")
    (read : ∀ k ∈ ks, PutsRow room depth (written k.2) (meaning k.2)) {text : List Char}
    {texts : Texts} (h : PutsBranches room (depth + 1) text texts) :
    PutsBranches room (depth + 1) (text ++ (ks.flatMap branchTrees).flatMap written)
      (texts + (ks.map (meaning ·.2)).sum) := by
  induction ks generalizing text texts with
  | nil => simpa using h
  | cons k ks ih =>
    obtain ⟨second, others⟩ := List.forall_mem_cons.1 read
    obtain ⟨sign, signs⟩ := List.forall_mem_cons.1 signs
    have front : (branchTrees k).flatMap written = '|' :: written k.2 := by
      rw [branchTrees, List.flatMap_cons, List.flatMap_singleton, written_mark (by simp) sign]
      rfl
    have next := ih signs others (h.or second)
    rw [List.append_assoc, add_assoc] at next
    rwa [List.flatMap_cons, List.flatMap_append, front, List.map_cons, List.sum_cons]

theorem isRead_alternation {choice : Option Nat} {t : Tree} {ks : List (Token × Tree)}
    (first : IsPhrase .concatenation t) (signs : ∀ k ∈ ks, k.1.lexeme = "|")
    (others : ∀ k ∈ ks, IsPhrase .concatenation k.2)
    (read : Phrase.concatenation.IsRead room t)
    (read' : ∀ k ∈ ks, Phrase.concatenation.IsRead room k.2) :
    Phrase.alternation.IsRead room
      (.node "alternation" none choice (t :: ks.flatMap branchTrees)) := by
  have bare : ∀ u ∈ (t :: ks.flatMap branchTrees).head?, isSign u "(" = false := by
    rintro _ ⟨⟩
    exact first.isSign_eq_false "("
  have le (u : Tree) (mem : u ∈ t :: ks.flatMap branchTrees) : 4 * nesting u + 4
      ≤ 4 * nesting (.node "alternation" none choice (t :: ks.flatMap branchTrees)) + 4 :=
    Nat.add_le_add_right (Nat.mul_le_mul_left 4 (nesting_le_of_mem mem)) 4
  show PutsBranches ..
  rw [written_row (by decide) bare, meaning_alternation first others]
  exact putsBranches_others signs
    (fun k mem => PutsRow.mono (read' k mem) (le k.2 (mem_branches mem)))
    (PutsRow.mono read (le t List.mem_cons_self)).branches

end

/-- **Each phrase is read as what it means**, if there is room for its brackets and one more. -/
theorem isRead {kind : Phrase} {t : Tree} (phrase : IsPhrase kind t) {room : Nat}
    (something : RepeatsSomething t) (enough : nesting t < room) : kind.IsRead room t := by
  induction phrase generalizing room with
  | literal atom => exact .inl ⟨_, _, _, atom, rfl⟩
  | any dot =>
    refine .inr ⟨rfl, ?_⟩
    rw [meaning_any, written_single (by decide), written_any]
    exact .any
  | group opens closes bare inner ih =>
    rw [nesting_group] at enough
    obtain ⟨room, rfl⟩ := Nat.exists_eq_add_of_le' (Nat.zero_lt_of_lt enough)
    refine .inr ⟨rfl, ?_⟩
    rw [written_group opens closes, meaning_group inner, nesting_group]
    exact PutsBranches.group (ih (something.of_mem (by simp)) (Nat.lt_of_succ_lt_succ enough))
  | once atom ih =>
    exact isRead_once atom (ih (something.of_mem List.mem_cons_self)
      (Nat.lt_of_le_of_lt (nesting_le_of_mem List.mem_cons_self) enough))
  | often atom many sign ih =>
    obtain ⟨room, rfl⟩ := Nat.exists_eq_add_of_le' (Nat.zero_lt_of_lt enough)
    exact isRead_often atom many sign something (ih (something.of_mem List.mem_cons_self)
      (Nat.lt_of_le_of_lt (nesting_le_of_mem List.mem_cons_self) enough))
  | concatenation each ih =>
    exact isRead_concatenation each fun t mem =>
      ih t mem (something.of_mem mem) (Nat.lt_of_le_of_lt (nesting_le_of_mem mem) enough)
  | alternation first signs others ih ih' =>
    refine isRead_alternation first signs others (ih (something.of_mem List.mem_cons_self)
      (Nat.lt_of_le_of_lt (nesting_le_of_mem List.mem_cons_self) enough)) fun k mem => ?_
    exact ih' k mem (something.of_mem (mem_branches mem))
      (Nat.lt_of_le_of_lt (nesting_le_of_mem (mem_branches mem)) enough)

end Polyglot.Pattern
