import Polyglot.Proofs.Language.Grammars
import Polyglot.Proofs.Parsing.Outlook

/-!
# All sentences of B are read

Most rules of B are decided by the next token (`decides_of`). There are three others.

*A primary expression* that starts with a name is a call or a variable. It is a call if a bracket
follows; and then the call takes more. *A statement* that starts with a name is an assignment or a
call, which shows at the second token.

*An if* may have an else, and a statement that ends with an if without one goes on with an else if it
can. So of two ways to say which if an else belongs to the parser only knows one. But if the
statement before an else can go on with it, it is a statement with the else as well (`closes_or_absorbs`),
and so there is always a way that the parser knows (`settled_if`).
-/

namespace Polyglot.B

open Filter
open Text (quote)
open Assembly (word)
open Grammar (YieldsTerm yieldsAll_singleton yieldsAll_append yieldsAll_once_iff)
open Along (ReadsUpTo SeqReadsUpTo SeqLoses SeqReads SeqFails SymbolFails Outlook)

/-! ## The outlook -/

/-- The signs of the operators, those that bind more closely first. -/
def binding : List (List String) :=
  [["*", "/", "%"], ["+", "-"], ["<", "<=", ">", ">="], ["==", "!="], ["&"], ["|"]]

/-- What might be taken at the end of an expression with the operators of some levels: a bracket,
if there is a variable before it, or an operator. -/
def furtherThan (levels : Nat) : List String := ("(" :: (binding.take levels).flatten).map quote

/-- What primary expressions start with. -/
def primaries : List String :=
  ["identifier", "decimal_integer", "escaped_string"] ++ ["[", "("].map quote

/-- The tokens at both ends of the rules. Arguments are the only rule that calls an earlier one before
it takes a token, namely that of expressions. -/
def outlook : Outlook where
  rank id := if id = 21 then 1 else id
  first
    | 0 | 1 => [quote "fn"]
    | 2 | 8 | 10 | 20 | 23 => ["identifier"]
    | 3 => "identifier" :: ["\x7b", "while", "if", "return", "[", ";"].map quote
    | 4 => [quote "\x7b"]
    | 5 => [quote "while"]
    | 6 => [quote "if"]
    | 7 => [quote "return"]
    | 9 | 22 => [quote "["]
    | 11 => [quote ";"]
    | 12 | 13 | 14 | 15 | 16 | 17 | 18 | 21 => primaries ++ ["!", "-"].map quote
    | 19 => primaries
    | 24 => ["decimal_integer"]
    | 25 => ["escaped_string"]
    | 26 | 39 => [quote ","]
    | 27 => [quote "else"]
    | 28 => [quote "|"]
    | 29 => [quote "&"]
    | 30 | 31 => ["==", "!="].map quote
    | 32 | 33 => ["<", "<=", ">", ">="].map quote
    | 34 | 35 => ["+", "-"].map quote
    | 36 | 37 => ["*", "/", "%"].map quote
    | 38 => ["!", "-"].map quote
    | _ => []
  further
    | 0 => ["fn", "else"].map quote
    | 1 | 3 | 5 | 6 | 27 => [quote "else"]
    | 2 => [quote ","]
    | 18 | 19 | 36 => furtherThan 0
    | 17 | 34 => furtherThan 1
    | 16 | 32 => furtherThan 2
    | 15 | 30 => furtherThan 3
    | 14 | 29 => furtherThan 4
    | 13 | 28 => furtherThan 5
    | 12 | 39 => furtherThan 6
    | 21 => quote "," :: furtherThan 6
    | _ => []

theorem outlook_sound : outlook.Sound readGrammar where
  opens := by decide +kernel
  ranked := by decide +kernel

/-- All rules but three are decided by the next token. -/
theorem decides_of {id : Nat} (other : id ∉ [3, 6, 19]) : outlook.decides readGrammar id := by
  have all : ∀ id < rules.size, id ∉ [3, 6, 19] → outlook.decides readGrammar id := by decide +kernel
  by_cases inside : id < rules.size
  · exact all id inside other
  · have none : readGrammar.rules[id]? = none := Array.getElem?_eq_none (Nat.not_lt.1 inside)
    rw [Outlook.decides, none]

/-! ## Names -/

section

variable {tokens rest : List Token}

/-- A call starts with a name and a bracket. -/
theorem call_starts (yields : readGrammar.Yields (.rule 20) tokens) :
    ∃ a b more, tokens = a :: b :: more ∧ a.type = "identifier" ∧ b.type = quote "(" := by
  obtain ⟨a, more, rfl, isName, all⟩ := (yields.of_only rfl).of_terminal rfl rfl
  obtain ⟨b, more, rfl, isBracket, -⟩ := all.of_terminal rfl rfl
  exact ⟨a, b, more, rfl, isName, isBracket⟩

/-- An assignment starts with a name and an equals sign. -/
theorem assignment_starts (yields : readGrammar.Yields (.rule 8) tokens) :
    ∃ a b more, tokens = a :: b :: more ∧ a.type = "identifier" ∧ b.type = quote "=" := by
  obtain ⟨a, more, rfl, isName, all⟩ := (yields.of_only rfl).of_terminal rfl rfl
  obtain ⟨b, more, rfl, isSign, -⟩ := all.of_terminal rfl rfl
  exact ⟨a, b, more, rfl, isName, isSign⟩

/-- A name without a bracket is no call. -/
theorem call_fails {depth base : Nat} (deep : readGrammar.rules.size + 1 < depth) (after : base < 20)
    {a : Token} (isName : a.type = "identifier") (ends : Along.Ends [quote "("] rest) :
    SymbolFails readGrammar (depth + 1) base (.rule 20) (a :: rest) outlook.rank := by
  have ordered : outlook.ordered 0
      [word "(", { one 21 with multiplicity := .optional }, word ")"] := by decide
  have behind : outlook.rank base < outlook.rank 20 := by
    show (if base = 21 then 1 else base) < 20
    split <;> omega
  refine .rule behind rfl fun terms mem => ?_
  obtain rfl := List.mem_singleton.1 mem
  exact .token rfl rfl isName (by decide) (.of_ends outlook_sound deep ordered rfl ends)

end

/-- **Primary expressions** are settled. -/
theorem settled_primary : outlook.Settled readGrammar 19 := by
  have among_others : ∀ r ∈ readGrammar.rules[19]?, ∀ i < 6, ∀ ts ∈ r.alternatives[i]?,
      ∀ ts' ∈ r.alternatives.eraseIdx i, Along.apart (outlook.startsAll ts) (outlook.startsAll ts')
        ∨ ts = [one 20] ∧ ts' = [one 23] ∨ ts = [one 23] ∧ ts' = [one 20] := by
    decide +kernel
  refine Along.settled_of_losers outlook_sound rfl (by decide +kernel) fun i ts among ts' mem => ?_
  refine (among_others _ rfl i (List.getElem?_eq_some_iff.1 among).1 ts among ts' mem).imp_right ?_
  rintro (⟨rfl, rfl⟩ | ⟨rfl, rfl⟩) tokens all
  · -- a name alone is less than a call
    obtain ⟨_, _, rfl, call, later⟩ := all.of_rule rfl rfl
    obtain ⟨a, b, more, rfl, isName, -⟩ := call_starts call
    rw [← map_add_atTop_eq_nat 1, eventually_map]
    refine .of_forall fun depth rest _ => ?_
    have name (more : List Token) : SeqReads readGrammar (depth + 1) 19 [one 23] [a] _ more outlook.rank :=
      .one (.once rfl rfl (.rule (by decide) (.another rfl isName (by decide))))
    exact (name _).loses (by simp)
  · -- and no bracket follows a name alone
    obtain ⟨_, _, rfl, name, later⟩ := all.of_rule rfl rfl
    obtain ⟨a, rfl, isName⟩ := name.of_alias rfl
    rw [later.of_nil]
    rw [← map_add_atTop_eq_nat 1, eventually_map]
    refine (eventually_gt_atTop (readGrammar.rules.size + 1)).mono fun depth deep rest ends => ?_
    have noBracket : Along.Ends [quote "("] rest := ends.mono (by decide)
    exact (SeqFails.head rfl (call_fails deep (by decide) isName noBracket)).loses _

/-! ## Statements -/

/-- The rules that are statements. -/
def kinds : List Nat := [4, 5, 6, 7, 8, 9, 10, 11]

section

variable {tokens : List Token} {types : List String}

/-- A statement is one of its kinds. -/
theorem exists_kind (yields : readGrammar.Yields (.rule 3) tokens) :
    ∃ k ∈ kinds, readGrammar.Yields (.rule k) tokens := by
  have only : ∀ r ∈ readGrammar.rules[3]?, ∀ ts ∈ r.alternatives, ∃ k ∈ kinds, ts = [one k] := by
    decide
  obtain ⟨ts, mem, all⟩ := yields.of_choice rfl
  obtain ⟨k, kind, rfl⟩ := only _ rfl ts mem
  obtain ⟨_, _, rfl, here, later⟩ := all.of_rule rfl rfl
  rw [later.of_nil, List.append_nil]
  exact ⟨k, kind, here⟩

/-- What is of a kind of statements is a statement. -/
theorem yields_statement {k : Nat} (kind : k ∈ kinds) (yields : readGrammar.Yields (.rule k) tokens) :
    readGrammar.Yields (.rule 3) tokens := by
  have among : ∀ r ∈ readGrammar.rules[3]?, ∀ k ∈ kinds, [one k] ∈ r.alternatives := by decide
  exact .choice rfl (among _ rfl k kind) ((yieldsAll_once_iff rfl).2 yields)

/-- **A statement is read** if it is read as what it is. -/
theorem statement_reads {k : Nat} (kind : k ∈ kinds) (yields : readGrammar.Yields (.rule k) tokens)
    (reads : ReadsUpTo readGrammar outlook.rank types k tokens) :
    ReadsUpTo readGrammar outlook.rank types 3 tokens := by
  have among_others : ∀ r ∈ readGrammar.rules[3]?, ∀ k ∈ kinds, r.alternatives[k - 4]? = some [one k]
      ∧ outlook.rank 3 < outlook.rank k
      ∧ ∀ ts' ∈ r.alternatives.eraseIdx (k - 4), Along.apart (outlook.first k) (outlook.startsAll ts')
        ∨ k = 8 ∧ ts' = [one 10] ∨ k = 10 ∧ ts' = [one 8] := by
    decide +kernel
  obtain ⟨among, after, others⟩ := among_others _ rfl k kind
  refine (reads.seq (t := one k) rfl rfl after).rule rfl among ?_
  rw [← map_add_atTop_eq_nat 2, eventually_map]
  refine (eventually_gt_atTop (readGrammar.rules.size + 1)).mono fun depth deep rest _ ts' mem => ?_
  rcases others ts' mem with other | ⟨rfl, rfl⟩ | ⟨rfl, rfl⟩
  · exact Along.loses_of_apart outlook_sound rfl (List.mem_of_mem_eraseIdx mem)
      (yields.startsWith outlook_sound) other (by omega) _ rest
  · obtain ⟨a, b, more, rfl, isName, isSign⟩ := assignment_starts yields
    have noBracket : Along.Ends [quote "("] (b :: more ++ rest) := .cons (by rw [isSign]; decide)
    have noCall : SymbolFails readGrammar (depth + 2) 3 (.rule 10) (a :: b :: more ++ rest) outlook.rank := by
      refine .rule (by decide) rfl fun terms mem => ?_
      obtain rfl := List.mem_singleton.1 mem
      exact .head rfl (call_fails deep (by decide) isName noBracket)
    exact (SeqFails.head rfl noCall).loses _
  · obtain ⟨_, _, rfl, call, -⟩ := (yields.of_only rfl).of_rule rfl rfl
    obtain ⟨a, b, more, rfl, isName, isBracket⟩ := call_starts call
    have ordered : outlook.ordered 0
        [word "=", { one 12 with label := some "value" }, word ";"] := by decide
    have noSign {rest : List Token} : Along.Ends [quote "="] (b :: rest) := .cons (by rw [isBracket]; decide)
    have noAssignment {rest : List Token} :
        SymbolFails readGrammar (depth + 2) 3 (.rule 8) (a :: b :: rest) outlook.rank := by
      refine .rule (by decide) rfl fun terms mem => ?_
      obtain rfl := List.mem_singleton.1 mem
      exact .token rfl rfl isName (by decide) (.of_ends outlook_sound (by omega) ordered rfl noSign)
    exact (SeqFails.head rfl noAssignment).loses _

/-- **Statements** are settled. -/
theorem settled_statement : outlook.Settled readGrammar 3 := by
  have ahead : ∀ k ∈ kinds, outlook.rank 3 < outlook.rank k
      ∧ ∀ type ∈ outlook.further k, type ∈ outlook.further 3 := by decide
  intro tokens each yields
  obtain ⟨k, kind, yields⟩ := exists_kind yields
  obtain ⟨after, sub⟩ := ahead k kind
  exact statement_reads kind yields ((each k tokens (Nat.le_refl _) (.inl after) yields).mono sub)

end

/-! ## Else -/

/-- What is between the first word of a loop, or of an if, and its statement. -/
def opening (first : String) : List Term :=
  [word first, word "(", { one 12 with label := some "condition" }, word ")"]

/-- The statement of a loop. -/
def body : Term := { one 3 with label := some "body" }

/-- The statement of an if. -/
def positive : Term := { one 3 with label := some "then" }

/-- The else of an if. -/
def negative : Term := { one 27 with multiplicity := .optional }

theorem while_at : readGrammar.rules[5]? = some ⟨"while", .choice [opening "while" ++ [body]]⟩ := rfl

theorem if_at : readGrammar.rules[6]? = some ⟨"if", .choice [opening "if" ++ [positive, negative]]⟩ := rfl

theorem else_at : readGrammar.rules[27]?
    = some ⟨"if:0", .choice [[word "else", { one 3 with label := some "otherwise" }]]⟩ := rfl

section

variable {tokens first s e : List Token} {types : List String}

/-- What a loop is. -/
theorem yields_while : readGrammar.Yields (.rule 5) tokens ↔ ∃ first s, tokens = first ++ s
    ∧ readGrammar.YieldsAll (opening "while") first ∧ readGrammar.Yields (.rule 3) s := by
  constructor
  · intro yields
    obtain ⟨first, s, eq, opens, rest⟩ := yieldsAll_append.1 (yields.of_only while_at)
    exact ⟨first, s, eq, opens, (yieldsAll_once_iff rfl).1 rest⟩
  · rintro ⟨first, s, rfl, opens, statement⟩
    exact .choice while_at (List.mem_singleton_self _)
      (yieldsAll_append.2 ⟨first, s, rfl, opens, (yieldsAll_once_iff rfl).2 statement⟩)

/-- What an if is. -/
theorem yields_if : readGrammar.Yields (.rule 6) tokens ↔ ∃ first s e, tokens = first ++ (s ++ e)
    ∧ readGrammar.YieldsAll (opening "if") first ∧ readGrammar.Yields (.rule 3) s
    ∧ (e = [] ∨ readGrammar.Yields (.rule 27) e) := by
  constructor
  · intro yields
    obtain ⟨first, _, eq, opens, rest⟩ := yieldsAll_append.1 (yields.of_only if_at)
    obtain ⟨s, e, rfl, statement, rest⟩ := rest.of_rule rfl rfl
    exact ⟨first, s, e, eq, opens, statement,
      (YieldsTerm.optional_iff rfl).1 (yieldsAll_singleton.1 rest)⟩
  · rintro ⟨first, s, e, rfl, opens, statement, last⟩
    have rest : readGrammar.YieldsAll [positive, negative] (s ++ e) :=
      .cons ((YieldsTerm.once_iff rfl).2 statement) (yieldsAll_singleton.2 ((YieldsTerm.optional_iff rfl).2 last))
    exact .choice if_at (List.mem_singleton_self _) (yieldsAll_append.2 ⟨first, s ++ e, rfl, opens, rest⟩)

/-- What an else is. -/
theorem yields_else : readGrammar.Yields (.rule 27) tokens ↔ ∃ token s, tokens = token :: s
    ∧ token.type = quote "else" ∧ readGrammar.Yields (.rule 3) s := by
  constructor
  · intro yields
    obtain ⟨token, s, eq, is, rest⟩ := (yields.of_only else_at).of_terminal rfl rfl
    exact ⟨token, s, eq, is, (yieldsAll_once_iff rfl).1 rest⟩
  · rintro ⟨token, s, rfl, is, statement⟩
    have sign : readGrammar.YieldsTerm (word "else") [token] := (YieldsTerm.once_iff rfl).2 (.terminal is)
    exact .choice else_at (List.mem_singleton_self _) (.cons sign ((yieldsAll_once_iff rfl).2 statement))

/-! ### How they are read -/

theorem ne_nil_of_opening {word : String} (opens : readGrammar.YieldsAll (opening word) first) : first ≠ [] := by
  obtain ⟨_, _, rfl, -⟩ := opens.of_terminal rfl rfl
  exact List.cons_ne_nil _ _

/-- A loop is read as far as its statement is. -/
theorem while_reads (opens : SeqReadsUpTo readGrammar outlook.rank [] 5 (opening "while") first)
    (solid : first ≠ []) (statement : ReadsUpTo readGrammar outlook.rank types 3 s) :
    ReadsUpTo readGrammar outlook.rank types 5 (first ++ s) :=
  (opens.append solid (statement.seq (t := body) rfl rfl (by decide))).only while_at

/-- An else is read as far as its statement is. -/
theorem else_reads {token : Token} (is : token.type = quote "else")
    (statement : ReadsUpTo readGrammar outlook.rank types 3 s) :
    ReadsUpTo readGrammar outlook.rank types 27 (token :: s) := by
  have sign : SeqReadsUpTo readGrammar outlook.rank [] 27 [word "else"] [token] :=
    ⟨[.ofToken token], .of_forall fun _ _ _ => .one (.once rfl rfl (.terminal is (by decide)))⟩
  have last : SeqReadsUpTo readGrammar outlook.rank types 0 [{ one 3 with label := some "otherwise" }] s :=
    statement.seq rfl rfl (by decide)
  exact (sign.append (List.cons_ne_nil _ _) last).only else_at

/-- An if without an else is read if none follows, as far as its statement is. -/
theorem if_reads (opens : SeqReadsUpTo readGrammar outlook.rank [] 6 (opening "if") first) (solid : first ≠ [])
    (statement : ReadsUpTo readGrammar outlook.rank types 3 s) (stops : quote "else" ∈ types) :
    ReadsUpTo readGrammar outlook.rank types 6 (first ++ s) := by
  obtain ⟨t, reads⟩ := statement
  have rest : SeqReadsUpTo readGrammar outlook.rank types 0 [positive, negative] (s ++ []) := by
    refine ⟨[t.withLabel (some "then"), .node "if:0?" none none []], ?_⟩
    filter_upwards [reads, eventually_gt_atTop (readGrammar.rules.size + 1)] with depth reads deep rest ends
    have noElse : SymbolFails readGrammar depth 0 (.rule 27) rest outlook.rank :=
      .of_ends outlook_sound deep (by decide) (ends.mono fun type mem => List.mem_singleton.1 mem ▸ stops)
    exact .cons (.once rfl rfl (.rule (by decide) (reads rest ends))) (.one (.optional_absent rfl noElse))
  rw [List.append_nil] at rest
  exact (opens.append solid rest).only if_at

/-- An if with an else is read as far as the else is, if what is before it is read in any case. -/
theorem if_else_reads (opens : SeqReadsUpTo readGrammar outlook.rank [] 6 (opening "if") first)
    (solid : first ≠ []) (statement : ReadsUpTo readGrammar outlook.rank [] 3 s)
    (last : ReadsUpTo readGrammar outlook.rank types 27 e) (there : e ≠ []) :
    ReadsUpTo readGrammar outlook.rank types 6 (first ++ (s ++ e)) := by
  obtain ⟨t, reads⟩ := statement
  obtain ⟨t', last⟩ := last
  have rest : SeqReadsUpTo readGrammar outlook.rank types 0 [positive, negative] (s ++ e) := by
    refine ⟨[t.withLabel (some "then"), .node "if:0?" none none [t']], ?_⟩
    filter_upwards [reads, last] with depth reads last rest ends
    exact .cons (.once rfl rfl (.rule (by decide) (reads _ (List.forall_mem_nil _))))
      (.one (.optional_some rfl there (.rule (by decide) (last rest ends))))
  exact (opens.append solid rest).only if_at

section

variable {n : Nat} (each : ∀ id part, part.length < n → readGrammar.Yields (.rule id) part →
  ReadsUpTo readGrammar outlook.rank (outlook.further id) id part)
include each

/-- **Before an else** a statement is read, or it is a statement with the else as well. -/
theorem closes_or_absorbs (short : s.length < n) (yields : readGrammar.Yields (.rule 3) s) :
    ReadsUpTo readGrammar outlook.rank [] 3 s
      ∨ ∀ e, readGrammar.Yields (.rule 27) e → readGrammar.Yields (.rule 3) (s ++ e) := by
  have closed : ∀ k ∈ kinds, k = 5 ∨ k = 6 ∨ outlook.further k = [] := by decide
  -- on the length, down the last statement: only a loop or a condition ends with another statement
  induction count : s.length using Nat.strong_induction_on generalizing s with
  | _ count ih =>
    obtain ⟨k, kind, yields⟩ := exists_kind yields
    rcases closed k kind with rfl | rfl | ends
    · obtain ⟨first, s, rfl, opens, statement⟩ := yields_while.1 yields
      have solid := ne_nil_of_opening opens
      have pos := List.length_pos_iff.2 solid
      rw [List.length_append] at short count
      have reads : SeqReadsUpTo readGrammar outlook.rank [] 5 (opening "while") first :=
        Along.seqReadsUpTo outlook_sound (by decide) (by decide) opens
          fun id part le _ => each id part (by omega)
      rcases ih s.length (by omega) (by omega) statement rfl with closes | absorbs
      · exact .inl (statement_reads kind yields (while_reads reads solid closes))
      · refine .inr fun e last => yields_statement kind (yields_while.2 ?_)
        exact ⟨first, s ++ e, List.append_assoc .., opens, absorbs e last⟩
    · obtain ⟨first, s, e, rfl, opens, statement, rfl | last⟩ := yields_if.1 yields
      · refine .inr fun e last => yields_statement kind (yields_if.2 ?_)
        exact ⟨first, s, e, by rw [List.append_nil, List.append_assoc], opens, statement, .inr last⟩
      · obtain ⟨token, s', rfl, is, statement'⟩ := yields_else.1 last
        have solid := ne_nil_of_opening opens
        have pos := List.length_pos_iff.2 solid
        rw [List.length_append, List.length_append, List.length_cons] at short count
        have reads : SeqReadsUpTo readGrammar outlook.rank [] 6 (opening "if") first :=
          Along.seqReadsUpTo outlook_sound (by decide) (by decide) opens
            fun id part le _ => each id part (by omega)
        rcases ih s'.length (by omega) (by omega) statement' rfl with closes' | absorbs'
        · rcases ih s.length (by omega) (by omega) statement rfl with closes | absorbs
          · have here := if_else_reads reads solid closes (else_reads is closes') (List.cons_ne_nil _ _)
            exact .inl (statement_reads kind yields here)
          · -- the else belongs to the statement before it, and this if has none
            refine .inr fun e last' => yields_statement kind (yields_if.2 ?_)
            exact ⟨first, s ++ token :: s', e, by simp only [List.append_assoc], opens, absorbs _ last,
              .inr last'⟩
        · refine .inr fun e last' => yields_statement kind (yields_if.2 ?_)
          have whole := yields_else.2 ⟨token, s' ++ e, rfl, is, absorbs' e last'⟩
          exact ⟨first, s, token :: (s' ++ e), by simp only [List.append_assoc, List.cons_append], opens,
            statement, .inr whole⟩
    · have here := each k s short yields
      rw [ends] at here
      exact .inl (statement_reads kind yields here)

end

/-- **An if** is settled: if an else can belong to the statement before it, it does. -/
theorem settled_if : outlook.Settled readGrammar 6 := by
  intro tokens each yields
  have fewer : ∀ id part, part.length < tokens.length → readGrammar.Yields (.rule id) part →
      ReadsUpTo readGrammar outlook.rank (outlook.further id) id part :=
    fun id part less => each id part (Nat.le_of_lt less) (.inr less)
  obtain ⟨first, s, e, rfl, opens, statement, last⟩ := yields_if.1 yields
  have solid := ne_nil_of_opening opens
  have pos := List.length_pos_iff.2 solid
  simp only [List.length_append] at fewer
  have reads : SeqReadsUpTo readGrammar outlook.rank [] 6 (opening "if") first :=
    Along.seqReadsUpTo outlook_sound (by decide) (by decide) opens fun id part le which yields =>
      each id part (by simp only [List.length_append]; omega) (which.imp_right fun less => by
        simp only [List.length_append]; omega) yields
  rcases last with rfl | last
  · rw [List.append_nil]
    exact if_reads reads solid (fewer 3 s (by omega) statement) (List.mem_singleton_self _)
  · rcases closes_or_absorbs fewer (by omega) statement with closes | absorbs
    · obtain ⟨token, s', rfl, -⟩ := yields_else.1 last
      exact if_else_reads reads solid closes (fewer 27 _ (by omega) last) (List.cons_ne_nil _ _)
    · exact if_reads reads solid (fewer 3 _ (by rw [List.length_append]; omega) (absorbs e last))
        (List.mem_singleton_self _)

end

/-- All rules are settled. -/
theorem settled (id : Nat) : outlook.Settled readGrammar id := by
  by_cases other : id ∉ [3, 6, 19]
  · exact Along.settled_of_decides outlook_sound (decides_of other)
  · simp only [List.mem_cons, List.not_mem_nil, or_false, not_not] at other
    rcases other with rfl | rfl | rfl
    · exact settled_statement
    · exact settled_if
    · exact settled_primary

/-- **All sentences of B are parsed.** -/
theorem exists_parse {tokens : List Token} (yields : readGrammar.Yields (.rule readGrammar.entry) tokens) :
    ∃ t, readGrammar.parseTokens tokens = .ok t :=
  Outlook.exists_parse outlook_sound settled yields

end Polyglot.B
