import Mathlib
import Polyglot.Proofs.Grammar.Sentences
import Polyglot.Proofs.Parsing.Predictive

/-!
# Grammars whose sentences are all read

The parser takes as much as it can and never gives anything back, so it may miss a sentence. It does
not if it can always be told from the next token whether there is more to take: whether a repetition
goes on, and which alternative it is.

An `Outlook` on a grammar says with which tokens rules may start, and which tokens the parser might
take at the end of a rule. Whether it is right can be checked rule by rule, without regard to what
the rule is used for: what may be taken at the end of a term must not be what comes next
(`Outlook.settles`). Where a rule does not pass, one may still know for other reasons that all it
stands for is read (`Outlook.Settled`).

**What is read.** Tokens that a rule stands for are read before any tokens that the parser would not
go on with (`ReadsUpTo`). That this holds of all rules if each is settled is an induction on how many
tokens there are, and on the number of the rule for as many (`Outlook.reads`). So all sentences are
parsed (`Outlook.exists_parse`).
-/

namespace Polyglot

/-- Whether nothing may match. -/
def Multiplicity.skips : Multiplicity → Bool
  | one | plus => false
  | optional | star => true

/-- Whether something may match several times. -/
def Multiplicity.repeats : Multiplicity → Bool
  | one | optional => false
  | star | plus => true

namespace Along

open Filter
open Polyglot.Grammar (Yields YieldsTerm YieldsAll)

/-! ## What is to be checked -/

/-- What is known of the rules, and of the tokens at both ends of them. -/
structure Outlook where
  /-- The ranks of the rules, in the order of which they are called at the same place. -/
  rank : Nat → Nat
  /-- The types of the tokens that what a rule stands for may start with. -/
  first : Nat → List String
  /-- The types of the tokens that the parser might take at the end of it. -/
  further : Nat → List String

/-- Whether two lists have nothing in common. -/
def apart (xs ys : List String) : Bool := xs.all fun x => !ys.contains x

namespace Outlook

variable (o : Outlook)

/-- The types of the tokens that a symbol may start with. -/
def starts : Symbol → List String
  | .rule id => o.first id
  | .terminal type => [type]

/-- The types of the tokens that terms may start with. -/
def startsAll : List Term → List String
  | [] => []
  | t :: ts => o.starts t.symbol ++ if t.multiplicity.skips then startsAll ts else []

/-- The types of the tokens that might be taken at the end of a symbol. -/
def goesOn : Symbol → List String
  | .rule id => o.further id
  | .terminal _ => []

/-- The types of the tokens that might be taken at the end of a term. -/
def goesOnTerm (t : Term) : List String :=
  o.goesOn t.symbol ++ if t.multiplicity == .one then [] else o.starts t.symbol

/-- Whether a symbol is a rule that comes after another one, or a terminal that is not reserved. -/
def follows (base : Nat) : Symbol → Bool
  | .rule id => o.rank base < o.rank id
  | .terminal type => !isReserved type

/-- Whether rules are called in their order, or after a token. -/
def ordered (base : Nat) : List Term → Bool
  | [] => true
  | t :: ts => o.follows base t.symbol && ordered (if t.multiplicity.skips then base else 0) ts

/-- Whether it shows at the next token that a term of several has come to its end, where tokens of
some types might be taken at the end of the last. -/
def settles (final : List String) : List Term → Bool
  | [] => true
  | t :: ts =>
    apart (o.goesOnTerm t) (o.startsAll ts)
    && (!ts.all (·.multiplicity.skips) || (o.goesOnTerm t).all final.contains)
    && (!t.multiplicity.repeats || apart (o.goesOn t.symbol) (o.starts t.symbol))
    && settles final ts

/-- Whether a rule starts as is said, and takes a token before it calls rules that come earlier. -/
def opens (g : Grammar) (id : Nat) : Bool :=
  match g.rules[id]? with
  | none => true
  | some ⟨_, .aliasOf type⟩ => !isReserved type && (o.first id).contains type
  | some ⟨_, .choice alternatives⟩ => alternatives.all fun ts =>
    o.ordered id ts && !ts.all (·.multiplicity.skips) && (o.startsAll ts).all (o.first id).contains

/-- Whether the rules start as is said, and have ranks that are not too high. -/
structure Sound (g : Grammar) : Prop where
  /-- The rules start as is said. -/
  opens : ∀ id < g.rules.size, o.opens g id
  /-- There are not more ranks than rules. -/
  ranked : ∀ id < g.rules.size, o.rank id ≤ g.rules.size

variable {o} in
/-- A rule that there is not calls for nothing. -/
theorem Sound.opens_rule {g : Grammar} (sound : o.Sound g) (id : Nat) : o.opens g id := by
  by_cases inside : id < g.rules.size
  · exact sound.opens id inside
  · rw [Outlook.opens, Array.getElem?_eq_none (Nat.not_lt.1 inside)]

/-- Whether it shows at the first token that it is not one of the other alternatives. -/
def selects (alternatives : List (List Term)) (i : Nat) (terms : List Term) : Bool :=
  (alternatives.eraseIdx i).all fun ts => apart (o.startsAll terms) (o.startsAll ts)

/-- Whether it shows at the next token which alternative of a rule it is, and where a term of it
ends. -/
def decides (g : Grammar) (id : Nat) : Bool :=
  match g.rules[id]? with
  | some ⟨_, .choice alternatives⟩ => alternatives.zipIdx.all fun (ts, i) =>
    o.settles (o.further id) ts && o.selects alternatives i ts
  | _ => true

end Outlook

/-- Whether the next token is of none of some types. -/
def Ends (types : List String) (rest : List Token) : Prop := ∀ type ∈ types, nextType rest ≠ some type

/-- Whether tokens start with one of some types. -/
def StartsWith (types : List String) (tokens : List Token) : Prop :=
  ∃ type ∈ types, nextType tokens = some type

theorem apart_iff {xs ys : List String} : apart xs ys ↔ ∀ x ∈ xs, x ∉ ys := by
  simp [apart]

section

variable {types types' : List String} {tokens rest : List Token}

theorem Ends.mono (h : Ends types rest) (sub : ∀ type ∈ types', type ∈ types) : Ends types' rest :=
  fun type mem => h type (sub type mem)

theorem Ends.nil : Ends types [] := fun _ _ => nofun

theorem Ends.cons {token : Token} (other : token.type ∉ types) : Ends types (token :: rest) :=
  fun _ mem next => other (Option.some.inj next ▸ mem)

theorem Ends.left (h : Ends (types ++ types') rest) : Ends types rest :=
  h.mono fun _ => List.mem_append_left _

theorem Ends.right (h : Ends (types ++ types') rest) : Ends types' rest :=
  h.mono fun _ => List.mem_append_right _

/-- What starts with other types is where something ends. -/
theorem StartsWith.ends (h : StartsWith types' rest) (other : apart types types') : Ends types rest := by
  obtain ⟨type, mem, next⟩ := h
  intro type' mem' next'
  obtain rfl := Option.some.inj (next.symm.trans next')
  exact apart_iff.1 other type mem' mem

theorem StartsWith.mono (h : StartsWith types tokens) (sub : ∀ type ∈ types, type ∈ types') :
    StartsWith types' tokens := by
  obtain ⟨type, mem, next⟩ := h
  exact ⟨type, sub type mem, next⟩

theorem StartsWith.ne_nil (h : StartsWith types tokens) : tokens ≠ [] := by
  rintro rfl
  obtain ⟨_, _, next⟩ := h
  cases next

theorem StartsWith.append (h : StartsWith types tokens) (rest : List Token) :
    StartsWith types (tokens ++ rest) := by
  obtain ⟨type, mem, next⟩ := h
  cases tokens with
  | nil => cases next
  | cons token tokens => exact ⟨type, mem, next⟩

end

end Along

/-! ## How tokens start -/

namespace Grammar

open Along (Outlook StartsWith)

section

variable {g : Grammar} {o : Outlook}

/-- The first of several terms that is there makes the start of them all. -/
theorem startsAll_cons {t : Term} {ts : List Term} {tokens more : List Token}
    (here : t.multiplicity.skips ∧ tokens = [] ∨ StartsWith (o.starts t.symbol) tokens)
    (later : ts.all (·.multiplicity.skips) ∧ more = [] ∨ StartsWith (o.startsAll ts) more) :
    (t :: ts).all (·.multiplicity.skips) ∧ tokens ++ more = []
      ∨ StartsWith (o.startsAll (t :: ts)) (tokens ++ more) := by
  rcases here with ⟨skips, rfl⟩ | here
  · rcases later with ⟨skips', rfl⟩ | later
    · exact .inl ⟨by rw [List.all_cons, skips, skips']; rfl, rfl⟩
    · refine .inr (later.mono fun type mem => ?_)
      rw [Outlook.startsAll, if_pos skips]
      exact List.mem_append_right _ mem
  · exact .inr ((here.append more).mono fun type => List.mem_append_left _)

mutual

/-- What a symbol stands for starts as is said. -/
theorem Yields.startsWith (sound : o.Sound g) : ∀ {x : Symbol} {tokens : List Token},
    g.Yields x tokens → StartsWith (o.starts x) tokens
  | _, _, .terminal is => ⟨_, List.mem_singleton_self _, congrArg some is⟩
  | .rule id, _, .another there is => by
    have opens := sound.opens_rule id
    rw [Outlook.opens, there] at opens
    exact ⟨_, List.contains_iff_mem.1 (Bool.and_eq_true_iff.1 opens).2, congrArg some is⟩
  | .rule id, _, .choice there mem all => by
    have opens := sound.opens_rule id
    rw [Outlook.opens, there] at opens
    obtain ⟨solid, sub⟩ := Bool.and_eq_true_iff.1 (List.all_eq_true.1 opens _ mem)
    rcases all.startsWith sound with ⟨skips, -⟩ | here
    · rw [skips, Bool.not_true, Bool.and_false] at solid
      cases solid
    · exact here.mono fun type mem => List.contains_iff_mem.1 (List.all_eq_true.1 sub type mem)

theorem YieldsTerm.startsWith (sound : o.Sound g) : ∀ {t : Term} {tokens : List Token},
    g.YieldsTerm t tokens → t.multiplicity.skips ∧ tokens = [] ∨ StartsWith (o.starts t.symbol) tokens
  | _, _, @YieldsTerm.intro _ t [] admits _ => by
    refine .inl ⟨?_, rfl⟩
    cases often : t.multiplicity <;> rw [often] at admits <;> first | rfl | cases admits
  | _, _, @YieldsTerm.intro _ _ (part :: parts) _ each =>
    .inr (((each part (List.mem_cons_self ..)).startsWith sound).append parts.flatten)

theorem YieldsAll.startsWith (sound : o.Sound g) : ∀ {ts : List Term} {tokens : List Token},
    g.YieldsAll ts tokens →
      ts.all (·.multiplicity.skips) ∧ tokens = [] ∨ StartsWith (o.startsAll ts) tokens
  | _, _, .nil => .inl ⟨rfl, rfl⟩
  | _, _, .cons first others => startsAll_cons (first.startsWith sound) (others.startsWith sound)

end

end

end Grammar

namespace Along

open Filter
open Polyglot.Grammar (Yields YieldsTerm YieldsAll)

variable {g : Grammar} {o : Outlook} {base : Nat} {x : Symbol} {t : Term} {ts : List Term}
  {tokens rest : List Token}

/-! ## What is not there -/

theorem refusesTerminal_of_ends {type : String} (known : isReserved type = false)
    (ends : Ends [type] rest) : refusesTerminal (nextType rest) type := by
  have other := ends type (List.mem_singleton_self _)
  simpa [refusesTerminal, known] using other

/-- Terms that need something are ruled out if those symbols are that they may start with. -/
theorem refusesAll_of_ends {symbol : Symbol → Bool}
    (each : ∀ x, o.follows base x → Ends (o.starts x) rest → symbol x)
    (ordered : o.ordered base ts) (solid : ts.all (·.multiplicity.skips) = false)
    (ends : Ends (o.startsAll ts) rest) : refusesAll symbol ts := by
  induction ts with
  | nil => cases solid
  | cons t ts ih =>
    rw [Outlook.ordered, Bool.and_eq_true] at ordered
    rw [Outlook.startsAll] at ends
    rw [refusesAll, each t.symbol ordered.1 ends.left, Bool.true_and]
    cases often : t.multiplicity with
    | one => rfl
    | plus => rfl
    | optional | star =>
      rw [List.all_cons, often] at solid
      rw [often] at ordered ends
      have solid : ts.all (·.multiplicity.skips) = false := by simpa [Multiplicity.skips] using solid
      rw [ih ordered.2 solid (Ends.right ends), Bool.or_true]

/-- A rule is ruled out by a token that it cannot start with. -/
theorem refuses_of_ends (sound : o.Sound g) {depth id : Nat} (pos : 0 < depth)
    (deep : g.rules.size + 1 < o.rank id + depth) (ends : Ends (o.first id) rest) :
    refuses g (nextType rest) depth id := by
  induction depth generalizing id with
  | zero => exact absurd pos (Nat.lt_irrefl 0)
  | succ depth ih =>
    have opens := sound.opens_rule id
    rw [refuses]
    rw [Outlook.opens] at opens
    cases found : g.rules[id]? with
    | none => rfl
    | some r =>
      obtain ⟨name, body⟩ := r
      rw [found] at opens
      cases body with
      | aliasOf type =>
        obtain ⟨known, mem⟩ := Bool.and_eq_true_iff.1 opens
        refine refusesTerminal_of_ends (by simpa using known) (ends.mono fun type' mem' => ?_)
        exact List.mem_singleton.1 mem' ▸ List.contains_iff_mem.1 mem
      | choice alternatives =>
        have ranked := sound.ranked id (Array.getElem?_eq_some_iff.1 found).1
        refine List.all_eq_true.2 fun ts mem => ?_
        obtain ⟨other, sub⟩ := Bool.and_eq_true_iff.1 (List.all_eq_true.1 opens ts mem)
        obtain ⟨ordered, solid⟩ := Bool.and_eq_true_iff.1 other
        refine refusesAll_of_ends (fun x after ends => ?_) ordered (by simpa using solid)
          (ends.mono fun type mem => List.contains_iff_mem.1 (List.all_eq_true.1 sub type mem))
        cases x with
        | rule id' =>
          have after : o.rank id < o.rank id' := of_decide_eq_true after
          exact ih (by omega) (by omega) ends
        | terminal type => exact refusesTerminal_of_ends (by simpa [Outlook.follows] using after) ends

/-- A symbol is ruled out by a token that it cannot start with. -/
theorem refusesBehind_of_ends (sound : o.Sound g) {depth : Nat} (deep : g.rules.size + 1 < depth)
    (after : o.follows base x) (ends : Ends (o.starts x) rest) :
    refusesBehind o.rank g (nextType rest) depth base x := by
  cases x with
  | rule id =>
    exact Bool.and_eq_true_iff.2 ⟨after, refuses_of_ends sound (by omega) (by omega) ends⟩
  | terminal type => exact refusesTerminal_of_ends (by simpa [Outlook.follows] using after) ends

theorem SymbolFails.of_ends (sound : o.Sound g) {depth : Nat} (deep : g.rules.size + 1 < depth)
    (after : o.follows base x) (ends : Ends (o.starts x) rest) : SymbolFails g depth base x rest o.rank :=
  .of_refuses (refusesBehind_of_ends sound deep after ends)

theorem SeqFails.of_ends (sound : o.Sound g) {depth : Nat} (deep : g.rules.size + 1 < depth)
    (ordered : o.ordered base ts) (solid : ts.all (·.multiplicity.skips) = false)
    (ends : Ends (o.startsAll ts) rest) : SeqFails g depth base ts rest o.rank :=
  .of_refuses (refusesAll_of_ends (fun _ => refusesBehind_of_ends sound deep) ordered solid ends)

/-! ## What is read -/

section

variable (g) (rank : Nat → Nat)

/-- Whether tokens are read as a rule before any that do not start with some types. -/
def ReadsUpTo (types : List String) (id : Nat) (tokens : List Token) : Prop :=
  ∃ t, ∀ᶠ depth in atTop, ∀ rest, Ends types rest → RuleReads g depth id tokens t rest rank

/-- Whether tokens are read as a symbol before any that do not start with some types. -/
def SymbolReadsUpTo (types : List String) (base : Nat) (x : Symbol) (tokens : List Token) : Prop :=
  ∃ t, ∀ᶠ depth in atTop, ∀ rest, Ends types rest → SymbolReads g depth base x tokens t rest rank

/-- Whether tokens are read as a term before any that do not start with some types. -/
def TermReadsUpTo (types : List String) (base : Nat) (t : Term) (tokens : List Token) : Prop :=
  ∃ tree, ∀ᶠ depth in atTop, ∀ rest, Ends types rest → TermReads g depth base t tokens tree rest rank

/-- Whether tokens are read as terms before any that do not start with some types. -/
def SeqReadsUpTo (types : List String) (base : Nat) (ts : List Term) (tokens : List Token) : Prop :=
  ∃ trees, ∀ᶠ depth in atTop, ∀ rest, Ends types rest → SeqReads g depth base ts tokens trees rest rank

end

theorem ReadsUpTo.mono {types types' : List String} {id : Nat} (reads : ReadsUpTo g o.rank types id tokens)
    (sub : ∀ type ∈ types, type ∈ types') : ReadsUpTo g o.rank types' id tokens := by
  obtain ⟨t, reads⟩ := reads
  exact ⟨t, reads.mono fun depth reads rest ends => reads rest (ends.mono sub)⟩

theorem ReadsUpTo.symbol {types : List String} {id : Nat} (after : o.rank base < o.rank id)
    (reads : ReadsUpTo g o.rank types id tokens) : SymbolReadsUpTo g o.rank types base (.rule id) tokens := by
  obtain ⟨t, reads⟩ := reads
  exact ⟨t, reads.mono fun depth reads rest ends => .rule after (reads rest ends)⟩

theorem SymbolReadsUpTo.terminal {type : String} {token : Token} (is : token.type = type)
    (known : isReserved type = false) : SymbolReadsUpTo g o.rank [] base (.terminal type) [token] :=
  ⟨_, .of_forall fun _ _ _ => .terminal is known⟩

/-- What holds of each of finitely many from some depth on holds of them all from some depth on. -/
theorem eventually_forall_mem {α : Type} {P : α → Nat → Prop} {as : List α}
    (each : ∀ a ∈ as, ∀ᶠ depth in atTop, P a depth) : ∀ᶠ depth in atTop, ∀ a ∈ as, P a depth := by
  induction as with
  | nil => exact .of_forall fun _ => List.forall_mem_nil _
  | cons a as ih =>
    obtain ⟨first, others⟩ := List.forall_mem_cons.1 each
    filter_upwards [first, ih others] with depth first others
    exact List.forall_mem_cons.2 ⟨first, others⟩

section

variable (sound : o.Sound g)
include sound

/-- **A term is read** if its symbol is, each time. -/
theorem termReadsUpTo (after : o.follows base t.symbol)
    (again : !t.multiplicity.repeats || apart (o.goesOn t.symbol) (o.starts t.symbol))
    (yields : g.YieldsTerm t tokens)
    (each : ∀ part, part.length ≤ tokens.length → g.Yields t.symbol part →
      SymbolReadsUpTo g o.rank (o.goesOn t.symbol) base t.symbol part) :
    TermReadsUpTo g o.rank (o.goesOnTerm t) base t tokens := by
  cases yields with
  | @intro _ parts admits yields =>
    have reads : ∀ part ∈ parts, SymbolReadsUpTo g o.rank (o.goesOn t.symbol) base t.symbol part :=
      fun part mem => each part (List.sublist_flatten_of_mem mem).length_le (yields part mem)
    have starts : ∀ part ∈ parts, StartsWith (o.starts t.symbol) part :=
      fun part mem => (yields part mem).startsWith sound
    unfold Outlook.goesOnTerm
    cases often : t.multiplicity with
    | one =>
      rw [often] at admits
      obtain ⟨part, rfl⟩ := List.length_eq_one_iff.1 admits
      obtain ⟨tree, reads⟩ := reads part (List.mem_singleton_self _)
      rw [List.flatten_singleton]
      exact ⟨_, reads.mono fun depth reads rest ends => .once often rfl (reads rest ends.left)⟩
    | optional =>
      rw [often] at admits
      match parts, admits with
      | [], _ =>
        exact ⟨_, (eventually_gt_atTop (g.rules.size + 1)).mono fun depth deep rest ends =>
          .optional_absent often (.of_ends sound deep after ends.right)⟩
      | [part], _ =>
        obtain ⟨tree, reads⟩ := reads part (List.mem_singleton_self _)
        have solid := (starts part (List.mem_singleton_self _)).ne_nil
        rw [List.flatten_singleton]
        exact ⟨_, reads.mono fun depth reads rest ends => .optional_some often solid (reads rest ends.left)⟩
    | star | plus =>
      have apart : apart (o.goesOn t.symbol) (o.starts t.symbol) := by
        rw [often] at again
        exact again
      choose! treeOf reads using reads
      refine ⟨.node (g.symbolName t.symbol ++ t.multiplicity.suffix) t.label none (parts.map treeOf), ?_⟩
      -- there are finitely many parts, so one depth is enough for all of them
      filter_upwards [eventually_gt_atTop (g.rules.size + 1), eventually_forall_mem reads] with depth deep reads
        rest ends
      have there : t.multiplicity = .star ∨ t.multiplicity = .plus ∧ parts ≠ [] := by
        rw [often] at admits ⊢
        first
          | exact .inl rfl
          | exact .inr ⟨rfl, List.length_pos_iff.1 admits⟩
      have all : TermReads g depth base t (parts.flatMap id) _ rest o.rank :=
        .many (P := Ends (o.goesOn t.symbol)) there reads (fun part mem => (starts part mem).ne_nil)
          (fun part mem more => ((starts part mem).append more).ends apart) ends.left
          (.of_ends sound deep after ends.right)
      rwa [List.flatMap_id] at all

/-- **Terms are read** one after the other, if it shows at the next token where each of them ends. -/
theorem seqReadsUpTo {final : List String} (settled : o.settles final ts) (ordered : o.ordered base ts)
    (yields : g.YieldsAll ts tokens)
    (each : ∀ id part, part.length ≤ tokens.length →
      o.rank base < o.rank id ∨ part.length < tokens.length → g.Yields (.rule id) part → ReadsUpTo g o.rank (o.further id) id part) :
    SeqReadsUpTo g o.rank final base ts tokens := by
  induction ts generalizing base tokens with
  | nil =>
    obtain rfl := yields.of_nil
    exact ⟨[], .of_forall fun _ _ _ => .nil⟩
  | cons t ts ih =>
    obtain ⟨first, more, rfl, here, later⟩ := yields.of_cons
    simp only [Outlook.settles, Bool.and_eq_true] at settled
    obtain ⟨⟨⟨next, final'⟩, again⟩, settled⟩ := settled
    rw [Outlook.ordered, Bool.and_eq_true] at ordered
    obtain ⟨after, ordered⟩ := ordered
    rw [List.length_append] at each
    have reads : TermReadsUpTo g o.rank (o.goesOnTerm t) base t first := by
      refine termReadsUpTo sound after again here fun part le yields => ?_
      cases symbol : t.symbol with
      | rule id =>
        rw [symbol] at yields after
        have after : o.rank base < o.rank id := of_decide_eq_true after
        exact (each id part (by omega) (.inl after) yields).symbol after
      | terminal type =>
        rw [symbol] at yields after
        obtain ⟨token, rfl, is⟩ := yields.of_terminal
        exact .terminal is (by simpa [Outlook.follows] using after)
    -- what comes after the term does not start with what might be taken at its end
    have ends {rest : List Token} (ends : Ends final rest) : Ends (o.goesOnTerm t) (more ++ rest) := by
      rcases later.startsWith sound with ⟨skips, rfl⟩ | starts
      · rw [skips] at final'
        exact ends.mono fun type mem => List.contains_iff_mem.1 (List.all_eq_true.1 final' type mem)
      · exact (starts.append rest).ends next
    obtain ⟨tree, reads⟩ := reads
    cases skips : t.multiplicity.skips with
    | true =>
      rw [skips] at ordered
      obtain ⟨trees, others⟩ := ih settled ordered later fun id part le which =>
        each id part (by omega) (which.imp_right fun less => by omega)
      refine ⟨tree :: trees, ?_⟩
      filter_upwards [reads, others] with depth reads others rest ends'
      exact .cons (reads _ (ends ends')) (others rest ends')
    | false =>
      rw [skips] at ordered
      have solid : first ≠ [] := by
        rcases here.startsWith sound with ⟨skips', -⟩ | starts
        · rw [skips] at skips'
          cases skips'
        · exact starts.ne_nil
      have pos := List.length_pos_iff.2 solid
      -- a token has been taken, so the order of the rules starts anew
      obtain ⟨trees, others⟩ := ih settled ordered later fun id part le _ =>
        each id part (by omega) (.inr (by omega))
      refine ⟨tree :: trees, ?_⟩
      filter_upwards [reads, others] with depth reads others rest ends'
      exact .cons_further (reads _ (ends ends')) solid (others rest ends')

end

/-! ## Rules -/

/-- Whether a rule is read, if what it calls is. -/
def Outlook.Settled (o : Outlook) (g : Grammar) (id : Nat) : Prop :=
  ∀ tokens, (∀ id' part, part.length ≤ tokens.length →
      o.rank id < o.rank id' ∨ part.length < tokens.length → g.Yields (.rule id') part →
      ReadsUpTo g o.rank (o.further id') id' part) →
    g.Yields (.rule id) tokens → ReadsUpTo g o.rank (o.further id) id tokens

section

variable {id : Nat} {name : String} {alternatives : List (List Term)} {types : List String}

/-- A rule is read as one of its alternatives if all others lose. -/
theorem SeqReadsUpTo.rule {i : Nat} (there : g.rules[id]? = some ⟨name, .choice alternatives⟩)
    (among : alternatives[i]? = some ts) (reads : SeqReadsUpTo g o.rank types id ts tokens)
    (others : ∀ᶠ depth in atTop, ∀ rest, Ends types rest → ∀ ts' ∈ alternatives.eraseIdx i,
      SeqLoses g depth id ts' tokens.length (tokens ++ rest) o.rank) : ReadsUpTo g o.rank types id tokens := by
  obtain ⟨trees, reads⟩ := reads
  refine ⟨.node name none (some i) trees, ?_⟩
  rw [← map_add_atTop_eq_nat 1, eventually_map]
  filter_upwards [reads, others] with depth reads others rest ends
  exact .winning there among (others rest ends) (reads rest ends)

/-- A rule with one alternative is read as this one. -/
theorem SeqReadsUpTo.only (there : g.rules[id]? = some ⟨name, .choice [ts]⟩)
    (reads : SeqReadsUpTo g o.rank types id ts tokens) : ReadsUpTo g o.rank types id tokens :=
  reads.rule (i := 0) there rfl (.of_forall fun _ _ _ => List.forall_mem_nil _)

/-- A rule is read as a term that asks for it once. -/
theorem ReadsUpTo.seq (reads : ReadsUpTo g o.rank types id tokens) (once : t.multiplicity = .one)
    (symbol : t.symbol = .rule id) (after : o.rank base < o.rank id) :
    SeqReadsUpTo g o.rank types base [t] tokens := by
  obtain ⟨tree, reads⟩ := reads
  refine ⟨[tree.withLabel t.label], reads.mono fun depth reads rest ends => ?_⟩
  exact .one (.once once rfl (symbol ▸ .rule after (reads rest ends)))

/-- Terms are read behind others that end where it shows. -/
theorem SeqReadsUpTo.append {ts' : List Term} {more : List Token}
    (reads : SeqReadsUpTo g o.rank [] base ts tokens) (solid : tokens ≠ [])
    (others : SeqReadsUpTo g o.rank types 0 ts' more) :
    SeqReadsUpTo g o.rank types base (ts ++ ts') (tokens ++ more) := by
  obtain ⟨trees, reads⟩ := reads
  obtain ⟨trees', others⟩ := others
  refine ⟨trees ++ trees', ?_⟩
  filter_upwards [reads, others] with depth reads others rest ends
  exact .append_further (reads _ (List.forall_mem_nil _)) solid (others rest ends)

/-- Another name for a terminal is read. -/
theorem readsUpTo_another {type : String} (there : g.rules[id]? = some ⟨name, .aliasOf type⟩)
    (known : isReserved type = false) {token : Token} (is : token.type = type) :
    ReadsUpTo g o.rank types id [token] := by
  refine ⟨.leaf name none (some type) token, ?_⟩
  rw [← map_add_atTop_eq_nat 1, eventually_map]
  exact .of_forall fun depth rest _ => .another there is known

variable (sound : o.Sound g)
include sound

/-- What is to be known of an alternative. -/
theorem opens_alternative (there : g.rules[id]? = some ⟨name, .choice alternatives⟩)
    (among : ts ∈ alternatives) :
    o.ordered id ts ∧ ts.all (·.multiplicity.skips) = false := by
  have opens := sound.opens_rule id
  rw [Outlook.opens, there] at opens
  obtain ⟨other, -⟩ := Bool.and_eq_true_iff.1 (List.all_eq_true.1 opens ts among)
  obtain ⟨ordered, solid⟩ := Bool.and_eq_true_iff.1 other
  exact ⟨ordered, by simpa using solid⟩

/-- Alternatives lose that cannot start as tokens do. -/
theorem loses_of_apart (there : g.rules[id]? = some ⟨name, .choice alternatives⟩)
    (among : ts ∈ alternatives) {types : List String} (starts : StartsWith types tokens)
    (other : apart types (o.startsAll ts)) {depth : Nat} (deep : g.rules.size + 1 < depth) (count : Nat)
    (rest : List Token) : SeqLoses g depth id ts count (tokens ++ rest) o.rank := by
  obtain ⟨ordered, solid⟩ := opens_alternative sound there among
  obtain ⟨type, mem, next⟩ := starts.append rest
  refine SeqFails.loses (.of_ends sound deep ordered solid fun type' mem' next' => ?_) count
  obtain rfl := Option.some.inj (next.symm.trans next')
  exact apart_iff.1 other type mem mem'

/-- **A rule with alternatives** is settled if the others lose to each of them. -/
theorem settled_of_losers (there : g.rules[id]? = some ⟨name, .choice alternatives⟩)
    (settles : ∀ ts ∈ alternatives, o.settles (o.further id) ts)
    (others : ∀ i ts, alternatives[i]? = some ts → ∀ ts' ∈ alternatives.eraseIdx i,
      apart (o.startsAll ts) (o.startsAll ts') ∨ ∀ tokens, g.YieldsAll ts tokens → ∀ᶠ depth in atTop,
        ∀ rest, Ends (o.further id) rest → SeqLoses g depth id ts' tokens.length (tokens ++ rest) o.rank) :
    o.Settled g id := by
  intro tokens each yields
  obtain ⟨ts, mem, yields⟩ := yields.of_choice there
  obtain ⟨i, among⟩ := List.mem_iff_getElem?.1 mem
  obtain ⟨ordered, solid⟩ := opens_alternative sound there mem
  have starts : StartsWith (o.startsAll ts) tokens := by
    rcases yields.startsWith sound with ⟨skips, -⟩ | starts
    · rw [skips] at solid
      cases solid
    · exact starts
  have lose : ∀ᶠ depth in atTop, ∀ ts' ∈ alternatives.eraseIdx i, ∀ rest, Ends (o.further id) rest →
      SeqLoses g depth id ts' tokens.length (tokens ++ rest) o.rank := by
    refine eventually_forall_mem fun ts' mem' => ?_
    rcases others i ts among ts' mem' with other | loses
    · exact (eventually_gt_atTop (g.rules.size + 1)).mono fun depth deep rest _ =>
        loses_of_apart sound there (List.mem_of_mem_eraseIdx mem') starts other deep _ rest
    · exact loses tokens yields
  exact (seqReadsUpTo sound (settles ts mem) ordered yields each).rule there among
    (lose.mono fun depth lose rest ends ts' mem' => lose ts' mem' rest ends)

/-- **What is decided by the next token** is settled. -/
theorem settled_of_decides (decided : o.decides g id) : o.Settled g id := by
  rw [Outlook.decides] at decided
  match there : g.rules[id]? with
  | none =>
    intro tokens each yields
    cases yields with
    | another there' => cases there.symm.trans there'
    | choice there' => cases there.symm.trans there'
  | some ⟨name, .aliasOf type⟩ =>
    intro tokens each yields
    have opens := sound.opens_rule id
    rw [Outlook.opens, there] at opens
    obtain ⟨token, rfl, is⟩ := yields.of_alias there
    exact readsUpTo_another there (by simpa using (Bool.and_eq_true_iff.1 opens).1) is
  | some ⟨name, .choice alternatives⟩ =>
    rw [there] at decided
    have checked {i : Nat} {ts : List Term} (among : alternatives[i]? = some ts) :=
      Bool.and_eq_true_iff.1 (List.all_eq_true.1 decided (ts, i) (List.mem_zipIdx_iff_getElem?.2 among))
    refine settled_of_losers sound there (fun ts mem => ?_) fun i ts among ts' mem' => .inl ?_
    · obtain ⟨i, among⟩ := List.mem_iff_getElem?.1 mem
      exact (checked among).1
    · exact List.all_eq_true.1 (checked among).2 ts' mem'

end

/-- **What rules stand for is read**, if each rule is settled. -/
theorem Outlook.reads (sound : o.Sound g) (settled : ∀ id, o.Settled g id) {id : Nat}
    (yields : g.Yields (.rule id) tokens) :
    ReadsUpTo g o.rank (o.further id) id tokens := by
  have inside {id : Nat} {part : List Token} (yields : g.Yields (.rule id) part) : id < g.rules.size := by
    cases yields with
    | another there => exact (Array.getElem?_eq_some_iff.1 there).1
    | choice there => exact (Array.getElem?_eq_some_iff.1 there).1
  -- on the number of tokens, and for as many on how many rules come after
  induction count : tokens.length using Nat.strong_induction_on generalizing id tokens with
  | _ count fewer =>
    induction left : g.rules.size - o.rank id using Nat.strong_induction_on generalizing id tokens with
    | _ left later =>
      refine settled id tokens (fun id' part le which yields' => ?_) yields
      by_cases less : part.length < tokens.length
      · exact fewer part.length (by omega) yields' rfl
      · have after := which.resolve_right less
        have ranked := sound.ranked id' (inside yields')
        exact later (g.rules.size - o.rank id') (by omega) yields' (by omega) rfl

/-- **All sentences are parsed**, if each rule is settled. -/
theorem Outlook.exists_parse (sound : o.Sound g) (settled : ∀ id, o.Settled g id)
    (yields : g.Yields (.rule g.entry) tokens) :
    ∃ t, g.parseTokens tokens = .ok t := by
  obtain ⟨t, reads⟩ := Outlook.reads sound settled yields
  obtain ⟨depth, reads⟩ := reads.exists
  exact ⟨t, Grammar.parseTokens_of_ruleReads (reads [] .nil)⟩

end Along

end Polyglot
