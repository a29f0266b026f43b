import Polyglot.Proofs.Parsing.Derivation
import Polyglot.Proofs.Parsing.Suffixes

/-!
# Sentences and their trees

The tree of a sentence is one that the grammar has, and the sentence can be read off its
leaves (`Grammar.parseTokens_derivation`). The leaves that are left out of it, those of the
reserved terminals, stand for places between tokens and not for tokens, so nothing that was
written is missing. As the leaves of a tree are those of the trees below it one after the
other, each tree below stands for a stretch of the sentence.
-/

namespace Polyglot

namespace Tree

mutual

/-- A tree and all the trees below it, at any depth. -/
def parts : Tree → List Tree
  | leaf name label terminal token => [leaf name label terminal token]
  | node name label choice children =>
    node name label choice children :: partsOfList children

/-- The trees of a list and all the trees below them, at any depth. -/
def partsOfList : List Tree → List Tree
  | [] => []
  | t :: ts => t.parts ++ partsOfList ts

end

mutual

/-- A part of a tree stands for a stretch of its tokens. -/
theorem tokens_isInfix_of_mem_parts (t : Tree) : ∀ u ∈ t.parts, u.tokens <:+: t.tokens := by
  cases t with
  | leaf name label terminal token =>
    rw [parts]
    exact List.forall_mem_singleton.2 (List.infix_refl _)
  | node name label choice children =>
    rw [parts]
    refine List.forall_mem_cons.2 ⟨List.infix_refl _, ?_⟩
    rw [tokens_node]
    exact tokens_isInfix_of_mem_partsOfList children

/-- A part of one of some trees stands for a stretch of the tokens of them all. -/
theorem tokens_isInfix_of_mem_partsOfList (ts : List Tree) :
    ∀ u ∈ partsOfList ts, u.tokens <:+: ts.flatMap tokens := by
  cases ts with
  | nil =>
    rw [partsOfList]
    exact List.forall_mem_nil _
  | cons t ts =>
    rw [partsOfList, List.flatMap_cons]
    refine List.forall_mem_append.2 ⟨fun u mem => ?_, fun u mem => ?_⟩
    · exact (tokens_isInfix_of_mem_parts t u mem).trans (List.prefix_append ..).isInfix
    · exact (tokens_isInfix_of_mem_partsOfList ts u mem).trans (List.suffix_append ..).isInfix

end

end Tree

namespace Grammar

/-- **The tree of a sentence** is one of the rule that parsing starts from. Its leaves from left
to right, without those of the reserved terminals, are the tokens of the sentence, and those
of any tree below it are a stretch of them. -/
theorem parseTokens_derivation {g : Grammar} {tokens : List Token} {t : Tree}
    (parsed : g.parseTokens tokens = .ok t) :
    g.Derives (.rule g.entry) t ∧ t.label = none ∧ readTokens t.tokens = tokens
      ∧ ∀ u ∈ t.parts, readTokens u.tokens <:+: tokens := by
  obtain ⟨derived, unlabeled, same, -⟩ := parseTokens_sound parsed
  refine ⟨derived, unlabeled, same, fun u mem => ?_⟩
  have stretch := (t.tokens_isInfix_of_mem_parts u mem).filter (fun t => !isReserved t.type)
  rw [← same]
  exact stretch

/-- A grammar of calls: names with numbers in brackets, of which there may be none. -/
def calls : Grammar where
  name := "calls"
  vocabulary := ⟨[], []⟩
  rules := #[
    ⟨"calls", .choice [[{ symbol := .rule 1, multiplicity := .plus, label := some "all" }]]⟩,
    ⟨"call", .choice
      [[{ symbol := .rule 2 }],
       [{ symbol := .rule 2, label := some "name" }, { symbol := .terminal "\"(\"" },
        { symbol := .terminal "decimal_integer", multiplicity := .star },
        { symbol := .terminal "\",\"", multiplicity := .optional }, { symbol := .terminal "\")\"" }]]⟩,
    ⟨"name", .aliasOf "identifier"⟩]
  entry := 0
  warnings := []

/-- The tokens of `f ( 1 2 ) g`. -/
def callTokens : List Token :=
  [{ type := "identifier", lexeme := "f" }, { type := "\"(\"", lexeme := "(" },
   { type := "decimal_integer", lexeme := "1", literal := some (.int 1) },
   { type := "decimal_integer", lexeme := "2", literal := some (.int 2) },
   { type := "\")\"", lexeme := ")" }, { type := "identifier", lexeme := "g" }]

theorem calls_derivation :
    ∃ t, calls.parseTokens callTokens = .ok t ∧ calls.Derives (.rule calls.entry) t
      ∧ t.label = none ∧ readTokens t.tokens = callTokens
      ∧ ∀ u ∈ t.parts, readTokens u.tokens <:+: callTokens := by
  have found : (calls.parseAlong 10 callTokens).isSome := by decide
  obtain ⟨t, found⟩ := Option.isSome_iff_exists.1 found
  have parsed := parseTokens_of_parseAlong found
  exact ⟨t, parsed, parseTokens_derivation parsed⟩

end Grammar

end Polyglot
