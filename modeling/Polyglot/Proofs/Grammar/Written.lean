import Polyglot.Proofs.Language.Grammars
import Polyglot.Proofs.Lexis.Spelling

/-!
# Declarations as they are written

Declarations are written as the source of a grammar, one on a line
(`Xbnf.sourceOf`). Names of rules stand between angle brackets, terminals stand as they are named,
and groups between round brackets; a label stands before and the sign of a multiplicity behind.
This can be done if the names are words and nothing that has to be there is missing
(`Declaration.Written`). The source then holds the tokens of the declarations, one after the
other (`Xbnf.holds_sourceOf`).

All that is said of a phrase is said of what it asks for, its multiplicity and its label, given
what was said of the phrases in a group. So it is put together by one recursion (`Phrase.fold`).
-/

namespace Polyglot

open Lexicon (Shape mark nameToken textToken)

/-! ## Recursion on phrases -/

/-- What a phrase asks for, given something for each phrase in a group. -/
inductive Atom (α : Type) where
  /-- A rule, by its name. -/
  | rule (name : String)
  /-- A terminal, by its name. -/
  | terminal (name : String)
  /-- A list of alternatives in brackets. -/
  | group (alternatives : List (List α))

namespace Phrase

section

variable {α : Type} (f : Atom α → Multiplicity → Option String → α)

mutual

/-- What comes of a phrase, given what comes of what it asks for with its multiplicity and its
label. -/
def fold : Phrase → α
  | rule name multiplicity label => f (.rule name) multiplicity label
  | terminal name multiplicity label => f (.terminal name) multiplicity label
  | group alternatives multiplicity label => f (.group (foldBody alternatives)) multiplicity label

/-- What comes of the phrases of an alternative. -/
def foldSequence : List Phrase → List α
  | [] => []
  | p :: ps => fold p :: foldSequence ps

/-- What comes of the phrases of a group. -/
def foldBody : List (List Phrase) → List (List α)
  | [] => []
  | ps :: rest => foldSequence ps :: foldBody rest

end

theorem foldSequence_eq (ps : List Phrase) : foldSequence f ps = ps.map (fold f) := by
  induction ps with
  | nil => rfl
  | cons p ps ih => rw [foldSequence, ih, List.map_cons]

theorem fold_group (alternatives : List (List Phrase)) (multiplicity : Multiplicity)
    (label : Option String) :
    fold f (group alternatives multiplicity label)
      = f (.group (alternatives.map (·.map (fold f)))) multiplicity label := by
  have body (alternatives : List (List Phrase)) :
      foldBody f alternatives = alternatives.map (·.map (fold f)) := by
    induction alternatives with
    | nil => rfl
    | cons ps rest ih => rw [foldBody, ih, foldSequence_eq, List.map_cons]
  rw [fold, body]

end

end Phrase

namespace Xbnf

/-! ## Names -/

/-- The words that are no names in written grammars. -/
def keywords : List String := ["alias", "ignore"]

/-- Whether a text is a word, and none that means something of its own. -/
def IsName (name : String) : Prop := name ∉ keywords ∧ Lexicon.IsWord name

/-- Whether a text names a terminal: an exact text, the end of the source, or a word. -/
def IsTerminal (name : String) : Prop :=
  (∃ text, name = Text.quote text) ∨ name = endTerminal ∨ IsName name

end Xbnf

open Xbnf (IsName IsTerminal)

/-- Whether a phrase can be written: names and labels are names, and no group and no alternative
in one is empty. -/
inductive Phrase.Written : Phrase → Prop
  /-- A rule. -/
  | rule {name : String} {multiplicity : Multiplicity} {label : Option String}
      (named : IsName name) (labeled : ∀ l ∈ label, IsName l) :
      Written (.rule name multiplicity label)
  /-- A terminal. -/
  | terminal {name : String} {multiplicity : Multiplicity} {label : Option String}
      (named : IsTerminal name) (labeled : ∀ l ∈ label, IsName l) :
      Written (.terminal name multiplicity label)
  /-- A group. -/
  | group {alternatives : List (List Phrase)} {multiplicity : Multiplicity} {label : Option String}
      (solid : alternatives ≠ []) (solids : ∀ phrases ∈ alternatives, phrases ≠ [])
      (each : ∀ phrases ∈ alternatives, ∀ p ∈ phrases, Written p)
      (labeled : ∀ l ∈ label, IsName l) : Written (.group alternatives multiplicity label)

/-- Whether a declaration can be written: it has a name, a rule has alternatives, none of which
is empty, and an alias has a terminal. -/
def Declaration.Written : Declaration → Prop
  | rule name alternatives => IsName name ∧ alternatives ≠ []
      ∧ ∀ phrases ∈ alternatives, phrases ≠ [] ∧ ∀ p ∈ phrases, p.Written
  | aliasOf name terminal => IsName name ∧ IsTerminal terminal

/-! ## Texts -/

namespace Xbnf

/-- The text of alternatives, from those of their phrases. -/
def bodyText (alternatives : List (List String)) : String :=
  match alternatives.map (" ".intercalate ·) with
  | [] => ""
  | first :: others => first ++ String.join (others.map (" | " ++ ·))

/-- The text of what a phrase asks for, from those of the phrases in a group. -/
def atomText : Atom String → String
  | .rule name => "<" ++ name ++ ">"
  | .terminal name => name
  | .group alternatives => "(" ++ bodyText alternatives ++ ")"

/-- The text of a label. -/
def labelText : Option String → String
  | some label => label ++ "="
  | none => ""

end Xbnf

/-- The text of a phrase. -/
def Phrase.text : Phrase → String :=
  fold fun atom multiplicity label => Xbnf.labelText label ++ Xbnf.atomText atom ++ multiplicity.suffix

/-- The text of a declaration. -/
def Declaration.text : Declaration → String
  | rule name alternatives =>
    "<" ++ name ++ "> ::= " ++ Xbnf.bodyText (alternatives.map (·.map Phrase.text)) ++ ";"
  | aliasOf name terminal => "alias <" ++ name ++ "> ::= " ++ terminal ++ ";"

/-- The source of declarations. -/
def Xbnf.sourceOf (ds : List Declaration) : String := "\n".intercalate (ds.map Declaration.text)

/-! ## Tokens -/

namespace Xbnf

/-- The tokens of alternatives, from those of their phrases. -/
def bodyTokens (alternatives : List (List (List Token))) : List Token :=
  match alternatives.map List.flatten with
  | [] => []
  | first :: others => first ++ others.flatMap (mark "|" :: ·)

/-- The number of the alternative that a terminal is: an exact text, a word, or the end of the
source. -/
def terminalChoice (name : String) : Nat :=
  if name.toList.head? = some '"' then 0 else if name = endTerminal then 2 else 1

/-- The token of a terminal. -/
def terminalToken (name : String) : Token :=
  match terminalChoice name with
  | 0 => Shape.string.token name
  | 1 => nameToken name
  | _ => mark name

/-- The tokens of what a phrase asks for, from those of the phrases in a group. -/
def atomTokens : Atom (List Token) → List Token
  | .rule name => [mark "<", nameToken name, mark ">"]
  | .terminal name => [terminalToken name]
  | .group alternatives => mark "(" :: (bodyTokens alternatives ++ [mark ")"])

/-- The tokens of a label. -/
def labelTokens : Option String → List Token
  | some label => [nameToken label, mark "="]
  | none => []

/-- The tokens of a multiplicity. -/
def multiplicityTokens : Multiplicity → List Token
  | .one => []
  | m => [mark m.suffix]

end Xbnf

/-- The tokens of a phrase. -/
def Phrase.tokens : Phrase → List Token :=
  fold fun atom multiplicity label =>
    Xbnf.labelTokens label ++ Xbnf.atomTokens atom ++ Xbnf.multiplicityTokens multiplicity

/-- The tokens of a declaration. -/
def Declaration.tokens : Declaration → List Token
  | rule name alternatives =>
    [mark "<", nameToken name, mark ">", mark "::="]
      ++ Xbnf.bodyTokens (alternatives.map (·.map Phrase.tokens)) ++ [mark ";"]
  | aliasOf name terminal =>
    [mark "alias", mark "<", nameToken name, mark ">", mark "::=", Xbnf.terminalToken terminal,
      mark ";"]

namespace Xbnf

/-! ### Whole tokens -/

theorem keywords_lexicon : lexicon.keywords = keywords := by decide

theorem IsName.whole {name : String} (h : IsName name) : lexicon.Whole (nameToken name) := by
  obtain ⟨noKeyword, word⟩ := h
  rw [← keywords_lexicon] at noKeyword
  exact Lexicon.whole_token (Lexicon.longest_word (by decide) word (Lexicon.exact_not_mem word noKeyword))

theorem whole_mark {sign : String} (mem : sign ∈ signs) : lexicon.Whole (mark sign) := by
  have each : ∀ sign ∈ signs,
      lexicon.longest sign.toList = some (.exact sign, sign.toList.length) := by
    decide
  exact Lexicon.whole_token (each sign mem)

theorem toList_head?_quote (text : String) : (Text.quote text).toList.head? = some '"' := by
  rw [Text.quote, String.toList_ofList]
  rfl

theorem terminalChoice_quote (text : String) : terminalChoice (Text.quote text) = 0 :=
  if_pos (toList_head?_quote text)

/-- A word is no exact text. -/
theorem IsName.first_ne_mark {name : String} (h : IsName name) : name.toList.head? ≠ some '"' := by
  obtain ⟨-, c, rest, list, initial, -⟩ := h
  rw [list, List.head?_cons]
  intro eq
  rw [Option.some.inj eq] at initial
  exact absurd initial (by decide)

theorem terminalChoice_name {name : String} (h : IsName name) : terminalChoice name = 1 := by
  have noEnd : name ≠ endTerminal := by
    obtain ⟨-, c, rest, list, initial, -⟩ := h
    rintro rfl
    obtain ⟨rfl, -⟩ := List.cons.inj list
    exact absurd initial (by decide)
  rw [terminalChoice, if_neg h.first_ne_mark, if_neg noEnd]

theorem terminalToken_quote (text : String) : terminalToken (Text.quote text) = textToken text := by
  rw [terminalToken, terminalChoice_quote]
  rfl

theorem terminalToken_name {name : String} (h : IsName name) :
    terminalToken name = nameToken name := by
  rw [terminalToken, terminalChoice_name h]
  rfl

theorem IsTerminal.whole {name : String} (h : IsTerminal name) :
    lexicon.Whole (terminalToken name) := by
  rcases h with ⟨text, rfl⟩ | rfl | isName
  · rw [terminalToken_quote]
    exact Lexicon.whole_textToken (by decide) (by decide) text
  · have isSign : endTerminal ∈ signs := by decide
    exact whole_mark isSign
  · rw [terminalToken_name isName]
    exact isName.whole

theorem lexeme_terminalToken (name : String) : (terminalToken name).lexeme = name := by
  unfold terminalToken
  split <;> rfl

/-! ### Texts that hold them -/

/-- The signs and words of the notation are told apart by blanks. -/
theorem tidy_lexicon : lexicon.tidy := by decide

theorem holds_mark {sign : String} (mem : sign ∈ signs) : lexicon.Holds sign [mark sign] :=
  .single (whole_mark mem)

section

variable {α : Type} {textOf : α → String} {tokensOf : α → List Token}

/-- Alternatives are told apart by the bars between them. -/
theorem holds_body {alternatives : List (List α)}
    (each : ∀ as ∈ alternatives, ∀ a ∈ as, lexicon.Holds (textOf a) (tokensOf a)) :
    lexicon.Holds (bodyText (alternatives.map (·.map textOf)))
      (bodyTokens (alternatives.map (·.map tokensOf))) := by
  have spaced (as : List α) (each : ∀ a ∈ as, lexicon.Holds (textOf a) (tokensOf a)) :
      lexicon.Holds (" ".intercalate (as.map textOf)) (as.map tokensOf).flatten := by
    rw [← List.flatMap_def]
    exact .intercalate (by decide) (by decide) each tidy_lexicon
  -- a bar with blanks around it may follow anything
  have opening (texts : List String) :
      (String.join (texts.map (" | " ++ ·))).toList.head?.all lexicon.isOpening := by
    cases texts with
    | nil => rfl
    | cons text texts =>
      rw [List.map_cons, String.join_cons, String.append_assoc, String.toList_append]
      rfl
  have others (rest : List (List α)) (each : ∀ as ∈ rest, ∀ a ∈ as, lexicon.Holds (textOf a) (tokensOf a)) :
      lexicon.Holds (String.join ((rest.map fun as => " ".intercalate (as.map textOf)).map (" | " ++ ·)))
        ((rest.map fun as => (as.map tokensOf).flatten).flatMap (mark "|" :: ·)) := by
    induction rest with
    | nil => exact .empty
    | cons as rest ih =>
      obtain ⟨first, others⟩ := List.forall_mem_cons.1 each
      have bar : lexicon.Holds (" " ++ ("|" ++ (" " ++ " ".intercalate (as.map textOf))))
          ([mark "|"] ++ (as.map tokensOf).flatten) :=
        ((holds_mark (by decide)).append (spaced as first).spaced (.inr (by decide)) tidy_lexicon).spaced
      have whole := bar.append (ih others) (.inl (opening _)) tidy_lexicon
      rw [List.map_cons, List.map_cons, List.map_cons, String.join_cons, List.flatMap_cons]
      rwa [← String.append_assoc, ← String.append_assoc] at whole
  unfold bodyText bodyTokens
  rw [List.map_map, List.map_map]
  cases alternatives with
  | nil => exact .empty
  | cons as rest =>
    obtain ⟨first, rest'⟩ := List.forall_mem_cons.1 each
    exact (spaced as first).append (others rest rest') (.inl (opening _)) tidy_lexicon

end

theorem holds_labelText {label : Option String} (labeled : ∀ l ∈ label, IsName l) :
    lexicon.Holds (labelText label) (labelTokens label) := by
  cases label with
  | none => exact .empty
  | some l =>
    exact (Lexicon.Holds.single (labeled l rfl).whole).append (holds_mark (by decide))
      (.inl (by decide)) tidy_lexicon

theorem isClosed_labelTokens (label : Option String) :
    (labelTokens label).getLast?.all fun t => lexicon.isClosed t.lexeme.toList := by
  cases label with
  | none => rfl
  | some l =>
    have closed : lexicon.isClosed (mark "=").lexeme.toList := by decide
    rw [labelTokens, List.getLast?_cons_cons]
    exact closed

theorem holds_suffix (m : Multiplicity) : lexicon.Holds m.suffix (multiplicityTokens m) := by
  cases m with
  | one => exact .empty
  | optional | star | plus => exact holds_mark (by decide)

theorem holds_terminal {name : String} (h : IsTerminal name) : lexicon.Holds name [terminalToken name] := by
  have held := Lexicon.Holds.single h.whole
  rwa [lexeme_terminalToken] at held

theorem holds_name {name : String} (h : IsName name) :
    lexicon.Holds ("<" ++ name ++ ">") [mark "<", nameToken name, mark ">"] :=
  ((holds_mark (by decide)).append (.single h.whole) (.inr (by decide)) tidy_lexicon).append
    (holds_mark (by decide)) (.inl (by decide)) tidy_lexicon

theorem holds_group {text : String} {ts : List Token} (h : lexicon.Holds text ts) :
    lexicon.Holds ("(" ++ text ++ ")") (mark "(" :: (ts ++ [mark ")"])) :=
  ((holds_mark (by decide)).append h (.inr (by decide)) tidy_lexicon).append (holds_mark (by decide))
    (.inl (by decide)) tidy_lexicon

theorem holds_phrase {p : Phrase} (written : p.Written) : lexicon.Holds p.text p.tokens := by
  have decorated {atom : Atom String} {atom' : Atom (List Token)} {multiplicity : Multiplicity}
      {label : Option String} (labeled : ∀ l ∈ label, IsName l)
      (h : lexicon.Holds (atomText atom) (atomTokens atom')) :
      lexicon.Holds (labelText label ++ atomText atom ++ multiplicity.suffix)
        (labelTokens label ++ atomTokens atom' ++ multiplicityTokens multiplicity) := by
    refine ((holds_labelText labeled).append h (.inr (isClosed_labelTokens label)) tidy_lexicon).append
      (holds_suffix multiplicity) (.inl ?_) tidy_lexicon
    cases multiplicity <;> decide
  induction written with
  | rule named labeled => exact decorated labeled (holds_name named)
  | terminal named labeled => exact decorated labeled (holds_terminal named)
  | group solid solids each labeled ih =>
    rw [Phrase.text, Phrase.tokens, Phrase.fold_group, Phrase.fold_group]
    exact decorated labeled (holds_group (holds_body ih))

theorem holds_declaration {d : Declaration} (written : d.Written) : lexicon.Holds d.text d.tokens := by
  have blank : lexicon.Holds " " [] := ⟨.done (by decide), nofun⟩
  have defines : lexicon.Holds "> ::= " [mark ">", mark "::="] := by
    have sign : lexicon.Holds ("::=" ++ " ") ([mark "::="] ++ []) :=
      (holds_mark (by decide)).append blank (.inl (by decide)) tidy_lexicon
    have both : lexicon.Holds (">" ++ (" " ++ ("::=" ++ " "))) ([mark ">"] ++ ([mark "::="] ++ [])) :=
      (holds_mark (by decide)).append sign.spaced (.inl (by decide)) tidy_lexicon
    have text : ">" ++ (" " ++ ("::=" ++ " ")) = "> ::= " := by decide
    rwa [text] at both
  have head {name : String} (named : IsName name) : lexicon.Holds ("<" ++ name ++ "> ::= ")
      [mark "<", nameToken name, mark ">", mark "::="] :=
    ((holds_mark (by decide)).append (.single named.whole) (.inr (by decide)) tidy_lexicon).append defines
      (.inl (by decide)) tidy_lexicon
  -- what ends in the sign that defines is closed, whatever follows
  have ended (ts : List Token) :
      (ts ++ [mark "::="]).getLast?.all fun t => lexicon.isClosed t.lexeme.toList := by
    have closed : lexicon.isClosed (mark "::=").lexeme.toList := by decide
    rw [List.getLast?_concat]
    exact closed
  cases d with
  | rule name alternatives =>
    obtain ⟨named, -, each⟩ := written
    have inside := holds_body fun as mem p mem' => holds_phrase ((each as mem).2 p mem')
    exact ((head named).append inside (.inr (ended [_, _, _])) tidy_lexicon).append (holds_mark (by decide))
      (.inl (by decide)) tidy_lexicon
  | aliasOf name terminal =>
    obtain ⟨named, isTerminal⟩ := written
    have word : lexicon.Holds ("alias" ++ " ") ([mark "alias"] ++ []) :=
      (holds_mark (by decide)).append blank (.inl (by decide)) tidy_lexicon
    have opening : ("<" ++ name ++ "> ::= ").toList.head?.all lexicon.isOpening := by
      rw [String.append_assoc, String.toList_append]
      rfl
    have stop : lexicon.Holds ";" [mark ";"] := holds_mark (by decide)
    have whole := ((word.append (head named) (.inl opening) tidy_lexicon).append (holds_terminal isTerminal)
      (.inr (ended [_, _, _, _])) tidy_lexicon).append stop (.inl (by decide)) tidy_lexicon
    have text : "alias" ++ " " ++ ("<" ++ name ++ "> ::= ") = "alias <" ++ name ++ "> ::= " := by
      have sign : "alias" ++ " " ++ "<" = "alias <" := by decide
      rw [← String.append_assoc, ← String.append_assoc, sign]
    rwa [text] at whole

/-- **The source of declarations** holds their tokens. -/
theorem holds_sourceOf {ds : List Declaration} (written : ∀ d ∈ ds, d.Written) :
    lexicon.Holds (sourceOf ds) (ds.flatMap Declaration.tokens) :=
  .intercalate (by decide) (by decide) (fun d mem => holds_declaration (written d mem)) tidy_lexicon

/-- **The source of declarations is cut** into their tokens, up to where they stand. -/
theorem tokenize_sourceOf {ds : List Declaration} (written : ∀ d ∈ ds, d.Written) :
    ∃ ts, lexicon.tokenize (sourceOf ds).toList = .ok ts
      ∧ List.Forall₂ (fun t u => t.agrees u) (ds.flatMap Declaration.tokens) ts :=
  (holds_sourceOf written).tokenize tidy_lexicon

end Xbnf

end Polyglot
