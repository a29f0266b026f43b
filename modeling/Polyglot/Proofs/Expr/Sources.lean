import Polyglot.Proofs.Language.Grammars
import Polyglot.Proofs.Lexis.Sharing
import Polyglot.Proofs.Tree.Unplaced

/-!
# Expressions in sources of B

The source of an expression may stand in a source of B. It is cut into the same tokens there
(`Expr.holds_source`), if no variable is a keyword of B: both languages have the same words and
numbers, and B has the signs of expressions and no longer ones that start with them.

So it is known which tokens the program has that gives values to the variables and then returns
the expression (`Expr.tokenize_program`).
-/

namespace Polyglot

open Lexicon (Shape IsWord mark nameToken numberToken)

namespace B

/-- The words that are no names. -/
def keywords : List String := ["fn", "while", "if", "else", "return"]

theorem keywords_lexicon : lexicon.keywords = keywords := by decide

end B

namespace Expr

/-! ## Tokens of both languages -/

/-- The signs of expressions. -/
def signs : List String := ["+", "-", "*", "/", "%", "(", ")"]

theorem shape_cases {s : Lexicon.Shape} (mem : s ∈ lexicon.shapes) :
    (∃ sign ∈ signs, s = .exact sign) ∨ s = .integer ∨ s = .identifier := by
  rcases List.mem_append.1 mem with mem | mem
  · obtain ⟨sign, isSign, rfl⟩ := List.mem_map.1 mem
    exact .inl ⟨sign, isSign, rfl⟩
  · rw [List.mem_cons, List.mem_singleton] at mem
    exact .inr mem

/-- What expressions are made of ends in the same places for B. -/
theorem endsFor_B : lexicon.EndsFor B.lexicon := by
  intro text s n found c next
  obtain ⟨mem, reaches, pos⟩ := (Lexicon.best_longest lexicon text).mem s n found
  obtain ⟨le, alone⟩ := Lexicon.longest_take found
  obtain ⟨d, rest, list⟩ : ∃ d rest, text = d :: rest := by
    refine List.exists_cons_of_ne_nil fun empty => ?_
    rw [empty] at le
    exact pos (Nat.le_zero.1 le)
  have starts : s.starts d := Shape.starts_of_reach? (list ▸ reaches) pos
  have taken : text.take n = d :: rest.take (n - 1) := by
    obtain ⟨n, rfl⟩ := Nat.exists_eq_add_one.2 (Nat.pos_of_ne_zero pos)
    rw [list, List.take_succ_cons, Nat.add_sub_cancel]
  rcases shape_cases mem with ⟨sign, isSign, rfl⟩ | rfl | rfl
  · have closed : ∀ sign ∈ signs, B.lexicon.isClosed sign.toList := by decide
    obtain ⟨-, whole, -⟩ := (Lexicon.best_longest lexicon (text.take n)).mem _ _ alone
    rw [← Shape.exact_of_reach? (whole.trans (congrArg some (List.length_take_of_le le).symm))]
    exact Lexicon.not_continues_of_isClosed (closed sign isSign) c
  · rw [taken]
    exact Lexicon.not_continues_of_digits (by decide) starts (Lexicon.reachOf_stop reaches c next)
  · rw [taken]
    exact Lexicon.not_continues_of_word (by decide) starts (Lexicon.reachOf_stop reaches c next)

/-- A token of an expression is one of B too, unless it is a keyword. -/
theorem whole_B {t : Token} (whole : lexicon.Whole t)
    (name : t.type = "identifier" → t.lexeme ∉ B.keywords) : B.lexicon.Whole t := by
  refine whole.share fun s mem agrees reaches => ?_
  rcases shape_cases mem with ⟨sign, isSign, rfl⟩ | rfl | rfl
  · have each : ∀ sign ∈ signs,
        B.lexicon.longest sign.toList = some (.exact sign, sign.toList.length) := by decide
    have text := Shape.exact_of_reach? reaches
    rw [← text]
    exact each sign isSign
  · obtain ⟨c, rest, list⟩ := List.exists_cons_of_ne_nil whole.ne_nil
    rw [list] at reaches ⊢
    obtain ⟨isDigit, isDigits⟩ := Lexicon.reachOf_eq_length.1 reaches
    exact Lexicon.longest_digits (by decide) (by decide) isDigit isDigits
  · obtain ⟨c, rest, list⟩ := List.exists_cons_of_ne_nil whole.ne_nil
    have same := (Token.agrees_iff.1 agrees)
    have noKeyword := name (congrArg Token.type same)
    rw [← B.keywords_lexicon] at noKeyword
    rw [list] at reaches
    obtain ⟨initial, parts⟩ := Shape.reach?_identifier.1 reaches
    have word : IsWord t.lexeme := ⟨c, rest, list, initial, parts⟩
    exact Lexicon.longest_word (by decide) word (Lexicon.exact_not_mem word noKeyword)

/-- **The source of an expression** holds the same tokens in B. -/
theorem holds_source {source : String} {ts : List Token} (cut : lexicon.tokenize source.toList = .ok ts)
    (names : ∀ t ∈ ts, t.type = "identifier" → t.lexeme ∉ B.keywords) :
    B.lexicon.Holds source ts :=
  ⟨Lexicon.laid_of_tokenize rfl endsFor_B cut, fun t mem =>
    whole_B (Lexicon.whole_of_tokensFrom cut t mem) (names t mem)⟩

/-! ## The program -/

/-- The source of an assignment in B. -/
def assignment (name : String) (value : Int32) : String :=
  name ++ " = " ++ toString value.toInt ++ ";"

/-- The source of a program of B that gives values to names and then returns an expression. -/
def program (names : List String) (value : String → Int32) (source : String) : String :=
  "fn main()\x7b" ++ String.join (names.map fun name => assignment name (value name))
    ++ "return " ++ source ++ ";\x7d"

/-- The tokens of a number with a sign. -/
def valueTokens : Int → List Token
  | .ofNat n => [numberToken n]
  | .negSucc n => [mark "-", numberToken (n + 1)]

/-- The tokens of an assignment. -/
def assignmentTokens (name : String) (value : Int32) : List Token :=
  [nameToken name, mark "="] ++ valueTokens value.toInt ++ [mark ";"]

/-- The tokens of the program, from those of the expression. -/
def programTokens (names : List String) (value : String → Int32) (ts : List Token) : List Token :=
  [mark "fn", nameToken "main", mark "(", mark ")", mark "\x7b"]
    ++ (names.flatMap (fun name => assignmentTokens name (value name))
      ++ ([mark "return"] ++ (ts ++ [mark ";", mark "\x7d"])))

/-- The texts of B that the program is made of besides the expression. -/
def programSigns : List String := ["fn", "(", ")", "\x7b", "=", "-", ";", "return", "\x7d"]

/-- The signs and words of B are told apart by blanks. -/
theorem tidy_B : B.lexicon.tidy := by decide

theorem holds_mark {sign : String} (mem : sign ∈ programSigns) : B.lexicon.Holds sign [mark sign] := by
  have each : ∀ sign ∈ programSigns,
      B.lexicon.longest sign.toList = some (.exact sign, sign.toList.length) := by decide
  exact .single (Lexicon.whole_token (each sign mem))

theorem holds_name {name : String} (word : IsWord name) (noKeyword : name ∉ B.keywords) :
    B.lexicon.Holds name [nameToken name] := by
  rw [← B.keywords_lexicon] at noKeyword
  exact .single (Lexicon.whole_token
    (Lexicon.longest_word (by decide) word (Lexicon.exact_not_mem word noKeyword)))

theorem holds_value (value : Int) : B.lexicon.Holds (toString value) (valueTokens value) := by
  have number (n : Nat) : B.lexicon.Holds n.repr [numberToken n] :=
    .single (Lexicon.whole_numberToken (by decide) (by decide) n)
  cases value with
  | ofNat n => exact number n
  | negSucc n => exact (holds_mark (by decide)).append (number (n + 1)) (.inr (by decide)) tidy_B

theorem holds_assignment {name : String} (word : IsWord name) (noKeyword : name ∉ B.keywords)
    (value : Int32) : B.lexicon.Holds (assignment name value) (assignmentTokens name value) := by
  have number : B.lexicon.Holds (toString value.toInt ++ ";") (valueTokens value.toInt ++ [mark ";"]) :=
    (holds_value _).append (holds_mark (by decide)) (.inl (by decide)) tidy_B
  have right : B.lexicon.Holds ("=" ++ (" " ++ (toString value.toInt ++ ";")))
      ([mark "="] ++ (valueTokens value.toInt ++ [mark ";"])) :=
    (holds_mark (by decide)).append_spaced number tidy_B
  have whole := (holds_name word noKeyword).append_spaced right tidy_B
  have text : assignment name value
      = name ++ (" " ++ ("=" ++ (" " ++ (toString value.toInt ++ ";")))) := by
    have sign : " " ++ ("=" ++ " ") = " = " := by decide
    rw [assignment, ← sign]
    simp only [String.append_assoc]
  rw [text]
  exact whole

theorem holds_assignments {names : List String} (word : ∀ name ∈ names, IsWord name)
    (noKeyword : ∀ name ∈ names, name ∉ B.keywords) (value : String → Int32) {text : String}
    {ts : List Token} (held : B.lexicon.Holds text ts) :
    B.lexicon.Holds (String.join (names.map fun name => assignment name (value name)) ++ text)
      (names.flatMap (fun name => assignmentTokens name (value name)) ++ ts) := by
  induction names with
  | nil => rwa [List.map_nil, String.join_nil, String.empty_append]
  | cons name names ih =>
    obtain ⟨word, words⟩ := List.forall_mem_cons.1 word
    obtain ⟨noKeyword, noKeywords⟩ := List.forall_mem_cons.1 noKeyword
    have closed : B.lexicon.isClosed (mark ";").lexeme.toList := by decide
    have whole := (holds_assignment word noKeyword (value name)).append (ih words noKeywords)
      (.inr (by rw [assignmentTokens, List.getLast?_concat]; exact closed)) tidy_B
    rwa [List.map_cons, String.join_cons, List.flatMap_cons, String.append_assoc, List.append_assoc]

/-- **The program** holds its tokens. -/
theorem holds_program {names : List String} (word : ∀ name ∈ names, IsWord name)
    (noKeyword : ∀ name ∈ names, name ∉ B.keywords) (value : String → Int32) {source : String}
    {ts : List Token} (held : B.lexicon.Holds source ts) :
    B.lexicon.Holds (program names value source) (programTokens names value ts) := by
  have head : B.lexicon.Holds "fn main()\x7b"
      [mark "fn", nameToken "main", mark "(", mark ")", mark "\x7b"] := by
    have main : B.lexicon.Holds "main" [nameToken "main"] :=
      holds_name ⟨_, _, rfl, by decide, List.all_eq_true.1 (by decide)⟩ (by decide)
    have brackets : B.lexicon.Holds ("(" ++ (")" ++ "\x7b")) ([mark "("] ++ ([mark ")"] ++ [mark "\x7b"])) :=
      (holds_mark (by decide)).append ((holds_mark (by decide)).append (holds_mark (by decide))
        (.inl (by decide)) tidy_B) (.inl (by decide)) tidy_B
    have keyword : B.lexicon.Holds "fn" [mark "fn"] := holds_mark (by decide)
    have whole := keyword.append_spaced (main.append brackets (.inl (by decide)) tidy_B) tidy_B
    have text : "fn" ++ (" " ++ ("main" ++ ("(" ++ (")" ++ "\x7b")))) = "fn main()\x7b" := by decide
    rwa [text] at whole
  have tail : B.lexicon.Holds ("return" ++ (" " ++ (source ++ (";" ++ "\x7d"))))
      ([mark "return"] ++ (ts ++ ([mark ";"] ++ [mark "\x7d"]))) :=
    (holds_mark (by decide)).append_spaced (held.append ((holds_mark (by decide)).append
      (holds_mark (by decide)) (.inl (by decide)) tidy_B) (.inl (by decide)) tidy_B) tidy_B
  have whole := head.append (holds_assignments word noKeyword value tail) (.inr (by decide)) tidy_B
  have text : program names value source = "fn main()\x7b"
      ++ (String.join (names.map fun name => assignment name (value name))
        ++ ("return" ++ (" " ++ (source ++ (";" ++ "\x7d"))))) := by
    have first : "return" ++ " " = "return " := by decide
    have last : ";" ++ "\x7d" = ";\x7d" := by decide
    rw [program, ← first, ← last]
    simp only [String.append_assoc]
  rw [text]
  exact whole

end Expr

end Polyglot
