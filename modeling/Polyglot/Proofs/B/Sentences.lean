import Polyglot.B.Syntax
import Polyglot.Proofs.Language.Grammars
import Polyglot.Proofs.Lexis.Spelling
import Polyglot.Proofs.Parsing.Parts

/-!
# Sentences of B

What is read from a tree is only as good as the tree. The trees of sources are of the kind that
is needed (`IsSentence`): calls, loads and assignments start with a token, so there are no
more of them than tokens; all texts stand in leaves that are read as texts; and functions are
called by words (`isSentence_shake`).
-/

namespace Polyglot.B

open Polyglot.Lexicon (Shape)

/-! ## Tokens -/

/-- Only texts in quotes have a text as their value. -/
theorem type_of_str? {t : Token} (whole : lexicon.Whole t) (has : t.str?.isSome) :
    t.type = "escaped_string" := by
  obtain ⟨s, mem, -, type, literal⟩ := whole.exists_entry
  rw [Token.str?, literal] at has
  cases s with
  | string => exact type
  | exact | identifier => cases has
  | integer =>
    have value : Shape.integer.entry.rule.value? t.lexeme
        = (Text.signed? 64 t.lexeme.toList).map .int := rfl
    rw [value] at has
    cases read : Text.signed? 64 t.lexeme.toList with
    | none => rw [read] at has; cases has
    | some n => rw [read] at has; cases has
  | regex =>
    have none : Shape.regex ∉ lexicon.shapes := by decide
    exact absurd mem none

/-- Identifiers are made of the characters of words. -/
theorem wordParts_of_type {t : Token} (whole : lexicon.Whole t) (is : t.type = "identifier") :
    ∀ c ∈ t.lexeme.toList, Lexicon.wordParts.contains c := by
  have only : lexicon.shapes.all fun s => s.entry.name != "identifier" || s == .identifier := by
    decide
  obtain ⟨s, mem, reaches, type, -⟩ := whole.exists_entry
  have here := List.all_eq_true.1 only s mem
  rw [← type, is] at here
  obtain rfl : s = .identifier := beq_iff_eq.1 here
  cases list : t.lexeme.toList with
  | nil => nofun
  | cons c rest =>
    rw [list] at reaches
    obtain ⟨initial, parts⟩ := Shape.reach?_identifier.1 reaches
    exact List.forall_mem_cons.2 ⟨Lexicon.wordParts_of_initials initial, parts⟩

/-! ## Trees -/

/-- Whether a tree starts with a token that is neither an address nor a list of arguments. -/
structure Opening (t : Tree) : Prop where
  /-- It is a token. -/
  isLeaf : t.isLeaf
  /-- It is no list of arguments. -/
  name : t.name ≠ "arguments"
  /-- It is no address. -/
  label : t.label ≠ some "address"

/-- Whether a tree is a token, or starts with one that is no part of what comes after it. -/
def Opens (t : Tree) : Prop := t.isLeaf ∨ ∃ first rest, t.children = first :: rest ∧ Opening first

/-- The names of the trees that start with a token. -/
def openers : List String := ["call", "load", "assignment"]

/-- Whether a tree is like those of sentences. -/
structure IsSentence (t : Tree) : Prop where
  /-- Calls, loads and assignments start with a token. -/
  opens : ∀ u ∈ t.parts, u.name ∈ openers → Opens u
  /-- All texts stand in leaves that are read as texts. -/
  texts : ∀ u ∈ t.parts, ∀ token ∈ u.token?, token.str?.isSome → u.name = "string"
  /-- Functions are called by words. -/
  words : ∀ u ∈ t.children, u.name = "function" →
    ∀ c ∈ (Function.ofTree u).name.toList, Lexicon.wordParts.contains c

/-- What a leaf is called that has a text for its value. -/
theorem name_of_has {name : String} {label terminal : Option String} {token : Token}
    (has : readGrammar.Has (.leaf name label terminal token)) (type : token.type = "escaped_string") :
    name = "string" := by
  have only : ∀ r ∈ rules.toList, r.body = .aliasOf "escaped_string" → r.name = "string" := by decide
  have never : ∀ r ∈ rules.toList, ∀ terms ∈ r.alternatives, ∀ term ∈ terms,
      term.symbol ≠ .terminal "escaped_string" := by decide
  rcases has.of_leaf with ⟨rfl, term, ⟨r, mem, terms, mem', mem''⟩, asks⟩ | ⟨r, mem, rfl, body⟩
  · rw [type] at asks
    exact absurd asks (never r (Array.mem_toList_iff.2 mem) terms mem' term mem'')
  · rw [type] at body
    exact only r (Array.mem_toList_iff.2 mem) body

/-- The tree of a term that asks for one terminal. -/
theorem exists_leaf_of_derives {term : Term} {type : String} {t : Tree} (one : term.multiplicity = .one)
    (symbol : term.symbol = .terminal type) (derived : readGrammar.DerivesTerm term t) :
    ∃ token, t = .leaf type term.label none token ∧ token.type = type := by
  obtain ⟨derived, label⟩ := derived.of_once one
  rw [symbol] at derived
  obtain ⟨token, eq, type⟩ := derived.of_terminal
  exact ⟨token, by rw [eq, label], type⟩

/-- What starts with a token, it and what comes after it. -/
theorem exists_children_of_has {name : String} {label : Option String} {choice : Option Nat}
    {children : List Tree} (has : readGrammar.Has (.node name label choice children))
    (opener : name ∈ openers) : ∃ first rest, children = first :: rest ∧ Opening first := by
  have ungenerated : ∀ name ∈ openers, isGenerated name = false := by decide
  have starts : ∀ r ∈ rules.toList, r.name ∈ openers → ∀ terms ∈ r.alternatives,
      ∃ term ∈ terms.head?, term.multiplicity = .one ∧ term.label ≠ some "address"
        ∧ ∃ type ∈ [Text.quote "[", "identifier"], term.symbol = .terminal type := by
    decide
  have types : ∀ type ∈ [Text.quote "[", "identifier"], type ≠ "arguments" := by decide
  rcases has.of_node with generated | ⟨r, mem, rfl, terms, among, derived⟩
  · rw [ungenerated name opener] at generated
    cases generated
  · obtain ⟨term, first, one, label, type, mem', symbol⟩ :=
      starts r (Array.mem_toList_iff.2 mem) opener terms among
    obtain ⟨others, rfl⟩ := List.head?_eq_some_iff.1 first
    cases derived with
    | cons derived _ =>
      obtain ⟨token, rfl, -⟩ := exists_leaf_of_derives one symbol derived
      exact ⟨_, _, rfl, rfl, types type mem', label⟩

/-- What is below a function: its sign, its name, and more. -/
theorem function_of_has {label : Option String} {choice : Option Nat} {children : List Tree}
    (has : readGrammar.Has (.node "function" label choice children)) :
    ∃ sign token rest, children = .leaf (Text.quote "fn") none none sign
        :: .leaf "identifier" (some "name") none token :: rest ∧ token.type = "identifier" := by
  have starts : ∀ r ∈ rules.toList, r.name = "function" → ∀ terms ∈ r.alternatives,
      terms.take 2 = [Assembly.word "fn", { symbol := .terminal "identifier", label := some "name" }] := by
    decide
  rcases has.of_node with generated | ⟨r, mem, named, terms, among, derived⟩
  · exact absurd generated (by decide)
  · have first := starts r (Array.mem_toList_iff.2 mem) named terms among
    match terms, first with
    | a :: b :: others, first =>
      obtain ⟨rfl, second⟩ := List.cons.inj first
      obtain ⟨rfl, -⟩ := List.cons.inj second
      obtain _ | ⟨sign, _ | ⟨name, _⟩⟩ := derived
      obtain ⟨signToken, rfl, -⟩ := exists_leaf_of_derives rfl rfl sign
      obtain ⟨nameToken, rfl, type⟩ := exists_leaf_of_derives rfl rfl name
      exact ⟨signToken, nameToken, _, rfl, type⟩

/-! ## Sources -/

theorem parse_eq_ok {source : String} {t : Tree} : language.parse source = .ok t
    ↔ ∃ ts, lexicon.tokenize source.toList = .ok ts ∧ readGrammar.parseTokens ts = .ok t := by
  have grammar : language.grammar? = .ok readGrammar := grammar_eq
  have vocabulary : readGrammar.vocabulary = lexicon.vocabulary := rfl
  exact Language.parse_eq_ok grammar vocabulary

section

variable {ts : List Token} {t : Tree}

/-- The terminal that a rule is another name for, if it is one. -/
def aliased? : RuleBody → Option String
  | .aliasOf type => some type
  | .choice _ => none

/-- A rule is no other name for a terminal that nothing is read for. -/
theorem unreserved_of_alias {r : Rule} {type : String} (mem : r ∈ rules.toList)
    (body : r.body = .aliasOf type) : isReserved type = false := by
  have each : ∀ r ∈ rules.toList, ∀ type ∈ aliased? r.body, isReserved type = false := by decide
  refine each r mem type ?_
  rw [body]
  rfl

/-- No rule asks for a terminal that nothing is read for. -/
theorem unreserved_of_term {r : Rule} {terms : List Term} {term : Term} {type : String}
    (mem : r ∈ rules.toList) (among : terms ∈ r.alternatives) (inside : term ∈ terms)
    (symbol : term.symbol = .terminal type) : isReserved type = false := by
  have each : ∀ r ∈ rules.toList, ∀ terms ∈ r.alternatives, ∀ term ∈ terms, (match term.symbol with
    | .terminal type => isReserved type
    | .rule _ => false) = false := by decide
  have here := each r mem terms among term inside
  rwa [symbol] at here

/-- The token of a leaf is one of those that were parsed. -/
theorem mem_of_leaf (parsed : readGrammar.parseTokens ts = .ok t) {u : Tree} (mem : u ∈ t.parts)
    {token : Token} (is : u.token? = some token) : token ∈ ts := by
  have stretch := (Grammar.parseTokens_derivation parsed).2.2.2 u mem
  cases u with
  | node => cases is
  | leaf name label terminal token' =>
    obtain rfl := Option.some.inj is
    have read : isReserved token'.type = false := by
      rcases (Grammar.has_of_parseTokens parsed _ mem).of_leaf with
        ⟨type, term, ⟨r, mem, terms, among, inside⟩, symbol⟩ | ⟨r, mem, -, body⟩
      · rw [type]
        exact unreserved_of_term (Array.mem_toList_iff.2 mem) among inside symbol
      · exact unreserved_of_alias (Array.mem_toList_iff.2 mem) body
    refine stretch.mem ?_
    rw [readTokens, Tree.tokens_leaf, List.mem_filter]
    exact ⟨List.mem_singleton_self _, by rw [read]; rfl⟩

end

/-- **The trees of sources** are like those of sentences, after shaking. -/
theorem isSentence_shake {source : String} {t : Tree} (parsed : language.parse source = .ok t) :
    IsSentence (language.shake t) := by
  obtain ⟨ts, cut, parsed⟩ := parse_eq_ok.1 parsed
  have whole : ∀ token ∈ ts, lexicon.Whole token := Lexicon.whole_of_tokensFrom cut
  have has := Grammar.has_of_parseTokens parsed
  have stems : ∀ u ∈ (language.shake t).parts, ∃ v ∈ t.parts, language.shaker.Stems u v :=
    Shake.exists_stems rfl t
  constructor
  case opens =>
    intro u mem opener
    obtain ⟨v, mem', stem⟩ := stems u mem
    cases v with
    | leaf name label terminal token =>
      refine .inl ?_
      rw [Tree.isLeaf, stem.token]
      rfl
    | node name label choice children =>
      rw [stem.name] at opener
      obtain ⟨first, rest, eq, opening⟩ := exists_children_of_has (has _ mem') opener
      have below := stem.children
      cases first with
      | node => cases opening.isLeaf
      | leaf =>
        rw [Tree.children, eq, Shake.shakeList, Shake.shakeInner] at below
        exact .inr ⟨_, _, below, opening⟩
  case texts =>
    intro u mem token is isText
    obtain ⟨v, mem', stem⟩ := stems u mem
    rw [stem.token] at is
    have type := type_of_str? (whole token (mem_of_leaf parsed mem' is)) isText
    cases v with
    | node => cases is
    | leaf name label terminal token' =>
      obtain rfl := Option.some.inj is
      rw [stem.name]
      exact name_of_has (has _ mem') type
  case words =>
    intro u mem named
    obtain ⟨v, mem', stem⟩ := stems u (Tree.mem_parts_of_mem_children (Tree.self_mem_parts _) mem)
    rw [stem.name] at named
    have below := stem.children
    cases v with
    | leaf =>
      -- there is no name in a token
      rw [Tree.children, Shake.shakeList] at below
      have nameless : (Function.ofTree u).name = "" := by
        rw [Function.ofTree, Tree.labeled?, below]
        rfl
      rw [nameless]
      exact fun _ none => by cases none
    | node name label choice children =>
      obtain rfl : name = "function" := named
      obtain ⟨sign, token, rest, rfl, type⟩ := function_of_has (has _ mem')
      rw [Tree.children, Shake.shakeList, Shake.shakeInner, Shake.shakeList, Shake.shakeInner] at below
      have inside : token ∈ ts := by
        have below : Tree.leaf "identifier" (some "name") none token ∈ t.parts :=
          Tree.mem_parts_of_mem_children mem' (List.mem_cons_of_mem _ List.mem_cons_self)
        exact mem_of_leaf parsed below rfl
      have called : (Function.ofTree u).name = token.lexeme := by
        rw [Function.ofTree, Tree.labeled?, below]
        exact Tree.text_of_tokens (Tree.tokens_leaf ..) (whole token inside).isEmpty
      rw [called]
      exact wordParts_of_type (whole token inside) type

end Polyglot.B
