import Polyglot.Proofs.Parsing.Memo

/-!
# The token where it goes wrong

An error of the parser names one token: the furthest that was looked at, or the first that was
not taken if this one is further on. Nothing behind it has a part in the error. Whatever follows it, and even
if nothing does, the parser gives the same error (`Grammar.parseTokens_of_blamed`).

This is about two runs of the parser, on tokens that are alike up to a place, and the reason for it is
that nothing is found out about a token without looking at it: an attempt that does not reach beyond
the place is made on both lists with the same outcome (`Plain.Likewise`), and ends at the place after it at
most. The trees of the two need not be equal. A terminal that takes nothing stands in the tree with the position of
the token behind it, at which the parser has not looked; and values of tokens are never looked at.

The attempts are those of the parser that remembers nothing (`Polyglot.Proofs.Parsing.Plain`).
-/

namespace Polyglot

open Polyglot.Source

/-- What there is to see of a token: all of it but its value. -/
def Token.face (t : Token) : String × String × Span := (t.type, t.lexeme, t.span)

namespace Plain

variable {α β : Type} {k : Nat} {u v : List Token} {R : α → α → Prop} {S : β → β → Prop}
  {a b : Attempt α}

/-- Two outcomes of which neither ends further on than right behind a place, and which end at the same place
with results that are related. -/
inductive Meets (k : Nat) (R : α → α → Prop) : Option (α × Nat) → Option (α × Nat) → Prop where
  | none : Meets k R none none
  | some {x y : α} {next : Nat} (related : R x y) (le : next ≤ k + 1) :
    Meets k R (some (x, next)) (some (y, next))

/-- **Two attempts have the same outcome** and reach equally far, if the first does not reach beyond
a place. -/
def Likewise (k : Nat) (R : α → α → Prop) (a b : Attempt α) : Prop :=
  a.reach ≤ k → b.reach = a.reach ∧ Meets k R a.result b.result

/-- Trees may be any. -/
abbrev Any (_ _ : α) : Prop := True

namespace Likewise

theorem map {f g : α → β} (alike : Likewise k R a b) (keeps : ∀ x y, R x y → S (f x) (g y)) :
    Likewise k S (a.map f) (b.map g) := by
  intro le
  obtain ⟨reach, meets⟩ := alike le
  refine ⟨reach, ?_⟩
  rw [Attempt.result_map, Attempt.result_map]
  generalize a.result = result at meets ⊢
  generalize b.result = result' at meets ⊢
  cases meets with
  | none => exact .none
  | some related le => exact .some (keeps _ _ related) le

theorem andThen {f f' : α → Nat → Attempt β} (alike : Likewise k R a b)
    (later : ∀ x y next, R x y → next ≤ k + 1 → Likewise k S (f x next) (f' y next)) :
    Likewise k S (a.andThen f) (b.andThen f') := by
  intro le
  have first : a.reach ≤ k := by
    unfold Attempt.andThen at le
    split at le
    · exact le
    · exact Nat.le_trans (Nat.le_max_left ..) le
  obtain ⟨reach, meets⟩ := alike first
  rcases a with ⟨result, _⟩
  rcases b with ⟨result', _⟩
  dsimp only at reach meets
  subst reach
  cases meets with
  | none => exact ⟨rfl, .none⟩
  | some related le' =>
    obtain ⟨reach, meets⟩ := later _ _ _ related le' (Nat.le_trans (Nat.le_max_right ..) le)
    exact ⟨congrArg (max _) reach, meets⟩

end Likewise

/-! ## Tokens that are alike up to a place -/

section

variable (inside : k < u.length) (same : (u.take (k + 1)).map Token.face = (v.take (k + 1)).map Token.face)
include same

/-- Up to the place there is the same to see in both. -/
theorem face_of_same {i : Nat} (le : i ≤ k) : v[i]?.map Token.face = u[i]?.map Token.face := by
  have eq := congrArg (·[i]?) same
  rw [List.getElem?_map, List.getElem?_map, List.getElem?_take_of_lt (Nat.lt_succ_of_le le),
    List.getElem?_take_of_lt (Nat.lt_succ_of_le le)] at eq
  exact eq.symm

include inside

theorem inside_of_same : k < v.length := by
  have lengths := congrArg List.length same
  rw [List.length_map, List.length_map, List.length_take, List.length_take] at lengths
  omega

theorem terminal_likewise (name : String) {place : Nat} (le : place ≤ k + 1) :
    Likewise k Any (terminal u name place) (terminal v name place) := by
  have inside' := inside_of_same inside same
  unfold terminal
  split
  · exact fun _ => ⟨rfl, .some trivial le⟩
  split
  · -- neither list has come to its end
    intro reach
    have reach : place ≤ k := by split at reach <;> exact reach
    rw [if_neg (by omega), if_neg (by omega)]
    exact ⟨rfl, .none⟩
  · intro reach
    have reach : place ≤ k := reach
    have faces := face_of_same same reach
    rw [List.getElem?_eq_getElem (Nat.lt_of_le_of_lt reach inside),
      List.getElem?_eq_getElem (Nat.lt_of_le_of_lt reach inside')] at faces ⊢
    have type : v[place].type = u[place].type := congrArg Prod.fst (Option.some.inj faces)
    refine ⟨rfl, ?_⟩
    rw [Option.filter_some, Option.filter_some, type]
    split
    · exact .some trivial (Nat.succ_le_succ reach)
    · exact .none

section

variable {call call' : Nat → Nat → Attempt Tree}
  (calls : ∀ id place, place ≤ k + 1 → Likewise k Any (call id place) (call' id place))
include calls

theorem symbol_likewise (s : Symbol) {place : Nat} (le : place ≤ k + 1) :
    Likewise k Any (symbol u call s place) (symbol v call' s place) := by
  cases s with
  | rule id => exact calls id place le
  | terminal name => exact (terminal_likewise inside same name le).map fun _ _ _ => trivial

omit inside same calls in
/-- What is looked at in the first round is looked at in all of them. -/
theorem reach_le_rounds (parse : Nat → Attempt Tree) (multiplicity : Multiplicity) (fuel : Nat)
    (first : Bool) (place : Nat) :
    (parse place).reach ≤ (rounds parse multiplicity (fuel + 1) first place).reach := by
  unfold rounds
  dsimp only
  split
  · exact Nat.le_refl _
  next found =>
    split
    · exact Nat.le_refl _
    split
    · exact Nat.le_refl _
    · rw [Attempt.andThen, found]
      exact Nat.le_max_left ..

omit calls in
/-- The two lists may be of different length, and so there may be different numbers of rounds; but neither
runs out of them. -/
theorem rounds_likewise {parse parse' : Nat → Attempt Tree}
    (alike : ∀ place ≤ k + 1, Likewise k Any (parse place) (parse' place)) (multiplicity : Multiplicity)
    (fuel fuel' : Nat) (first : Bool) {place : Nat} (le : place ≤ k + 1)
    (enough : u.length < fuel + place) (enough' : v.length < fuel' + place) :
    Likewise k (fun ts ts' => ts.isEmpty = ts'.isEmpty) (rounds parse multiplicity fuel first place)
      (rounds parse' multiplicity fuel' first place) := by
  have inside' := inside_of_same inside same
  -- on the rounds of the one list: each round is as the other list's, which has some left, too
  induction fuel generalizing fuel' first place with
  | zero => omega
  | succ fuel ih =>
    obtain ⟨fuel', rfl⟩ : ∃ n, fuel' = n + 1 := ⟨fuel' - 1, by omega⟩
    intro reach
    obtain ⟨reach_eq, meets⟩ := alike place le (Nat.le_trans (reach_le_rounds ..) reach)
    rw [rounds] at reach ⊢
    rw [rounds]
    cases found : (parse place).result with
    | none =>
      rw [found] at meets
      cases found' : (parse' place).result with
      | none => exact ⟨reach_eq, .some rfl le⟩
      | some => rw [found'] at meets; cases meets
    | some result =>
      obtain ⟨t, next⟩ := result
      obtain ⟨t', found', le'⟩ : ∃ t', (parse' place).result = some (t', next) ∧ next ≤ k + 1 := by
        rw [found] at meets
        cases found' : (parse' place).result with
        | none => rw [found'] at meets; cases meets
        | some =>
          rw [found'] at meets
          cases meets with
          | some _ le' => exact ⟨_, rfl, le'⟩
      rw [found] at reach
      rw [found']
      dsimp only at reach ⊢
      split at reach
      · next stands =>
        rw [if_pos stands, if_pos stands]
        refine ⟨reach_eq, .some ?_ le'⟩
        split <;> rfl
      · next stands =>
        rw [if_neg stands, if_neg stands]
        split at reach
        · next single =>
          rw [if_pos single, if_pos single]
          exact ⟨reach_eq, .some rfl le'⟩
        · next single =>
          rw [if_neg single, if_neg single]
          unfold Attempt.andThen at reach ⊢
          rw [found] at reach ⊢
          rw [found']
          dsimp only at reach ⊢
          have others := ih fuel' false le' (by omega) (by omega)
          obtain ⟨reach₂, meets₂⟩ := (others.map (f := (t :: ·)) (g := (t' :: ·))
            (S := fun ts ts' => ts.isEmpty = ts'.isEmpty) fun _ _ _ => rfl)
            (Nat.le_trans (Nat.le_max_right ..) reach)
          exact ⟨by rw [reach_eq, reach₂], meets₂⟩

theorem repeated_likewise (s : Symbol) (multiplicity : Multiplicity) {place : Nat} (le : place ≤ k + 1) :
    Likewise k Any (repeated u (symbol u call s) multiplicity place)
      (repeated v (symbol v call' s) multiplicity place) := by
  have each := rounds_likewise inside same (fun place le => symbol_likewise inside same calls s le)
    multiplicity (u.length + 1) (v.length + 1) true le (by omega) (by omega)
  intro reach
  obtain ⟨reach_eq, meets⟩ := each reach
  refine ⟨reach_eq, ?_⟩
  unfold repeated
  dsimp only
  generalize (rounds (symbol u call s) multiplicity (u.length + 1) true place).result = result at meets ⊢
  generalize (rounds (symbol v call' s) multiplicity (v.length + 1) true place).result = result' at meets ⊢
  cases meets with
  | none => exact .none
  | some related le' =>
    rw [Option.filter_some, Option.filter_some]
    dsimp only
    rw [related]
    split
    · exact .some trivial le'
    · exact .none

theorem term_likewise (g : Grammar) (t : Term) {place : Nat} (le : place ≤ k + 1) :
    Likewise k Any (term g u call t place) (term g v call' t place) := by
  unfold term
  dsimp only
  split
  · exact (symbol_likewise inside same calls t.symbol le).map fun _ _ _ => trivial
  · exact ((repeated_likewise inside same calls t.symbol t.multiplicity le).map
      (S := Any) fun _ _ _ => trivial).map fun _ _ _ => trivial

theorem sequence_likewise (g : Grammar) (ts : List Term) {place : Nat} (le : place ≤ k + 1) :
    Likewise k Any (sequence g u call ts place) (sequence g v call' ts place) := by
  induction ts generalizing place with
  | nil => exact fun _ => ⟨rfl, .some trivial le⟩
  | cons t ts ih =>
    exact (term_likewise inside same calls g t le).andThen fun _ _ _ _ le' =>
      (ih le').map fun _ _ _ => trivial

omit inside same calls in
/-- Which of two is longer is decided by where they end. -/
theorem longer_meets {x x' y y' : Option ((Nat × List Tree) × Nat)}
    (first : Meets k (fun p q => p.1 = q.1) x x') (second : Meets k (fun p q => p.1 = q.1) y y') :
    Meets k (fun p q => p.1 = q.1) (longer x y) (longer x' y') := by
  cases first with
  | none => exact second
  | some related le =>
    cases second with
    | none => exact .some related le
    | some related' le' =>
      rw [longer, longer]
      dsimp only
      split
      · exact .some related' le'
      · exact .some related le

/-- The same alternative is the longest. -/
theorem longest_likewise (g : Grammar) (index : Nat) (alternatives : List (List Term)) {place : Nat}
    (le : place ≤ k + 1) :
    Likewise k (fun p q => p.1 = q.1) (longest g u call place index alternatives)
      (longest g v call' place index alternatives) := by
  induction alternatives generalizing index with
  | nil => exact fun _ => ⟨rfl, .none⟩
  | cons terms rest ih =>
    intro reach
    have this := ((sequence_likewise inside same calls g terms le).map (f := (index, ·)) (g := (index, ·))
      (S := fun p q => p.1 = q.1) fun _ _ _ => rfl) (Nat.le_trans (Nat.le_max_left ..) reach)
    have others := ih (index + 1) (Nat.le_trans (Nat.le_max_right ..) reach)
    refine ⟨?_, longer_meets this.2 others.2⟩
    rw [longest, longest]
    dsimp only
    rw [this.1, others.1]

theorem body_likewise (g : Grammar) (r : Rule) {place : Nat} (le : place ≤ k + 1) :
    Likewise k Any (body g u call r place) (body g v call' r place) := by
  unfold body
  split
  · exact (terminal_likewise inside same _ le).map fun _ _ _ => trivial
  · exact (longest_likewise inside same calls g 0 _ le).map fun _ _ _ => trivial

end

/-- **A call of a rule** has the same outcome, if it does not reach beyond the place. -/
theorem rule_likewise (g : Grammar) (opened : List Call) (id : Nat) {place : Nat} (le : place ≤ k + 1) :
    Likewise k Any (rule g u opened id place) (rule g v opened id place) := by
  have inside' := inside_of_same inside same
  have refused : Likewise k Any (α := Tree) .refused .refused := fun _ => ⟨rfl, .none⟩
  fun_induction rule g u opened id place with
  | case1 opened id place _ _ missing => rwa [rule_eq_refused missing]
  | case2 opened id place known _ r there ih =>
    rw [rule_eq_body there (by omega) known.2]
    exact body_likewise inside same (fun id place le => ih id place le) g r le
  | case3 opened id place closed =>
    by_cases mem : (id, place) ∈ opened
    · rwa [rule, dif_neg fun known => known.2 mem]
    · -- there is no such rule, as there is such a place
      have missing : g.rules[id]? = none := by
        refine Array.getElem?_eq_none_iff.2 (Nat.le_of_not_lt fun lt => closed ⟨?_, mem⟩)
        exact mem_calls.2 ⟨lt, by omega⟩
      rwa [rule_eq_refused missing]

end

end Plain

/-! ## What is reported -/

/-- The place that is named in an error, if there is one: the furthest that was looked at, or the one where what
was found ends. -/
def Parser.blamed (g : Grammar) (tokens : List Token) : Nat :=
  match Parser.rule g tokens.toArray (Parser.depthBound g tokens.toArray) g.entry {} with
  | (none, s) => s.furthest
  | (some _, s) => max s.furthest s.position

namespace Grammar

open Plain

variable {g : Grammar} {k : Nat} {u v tokens : List Token} {e : ParseError}

/-- The place is that of the parser that remembers nothing. -/
theorem blamed_eq (g : Grammar) (tokens : List Token) :
    Parser.blamed g tokens = match (rule g tokens [] g.entry 0).result with
      | none => (rule g tokens [] g.entry 0).reach
      | some (_, next) => max (rule g tokens [] g.entry 0).reach next := by
  have leads := follows_rule (unopened_lt_depthBound g tokens) g.entry {} (holds_start g tokens)
  have result := leads.result_eq [] (.inl rfl)
  have furthest := leads.furthest_eq [] (.inl rfl)
  rw [Nat.zero_max] at furthest
  unfold Parser.blamed
  rcases run : Parser.rule g tokens.toArray (Parser.depthBound g tokens.toArray) g.entry {}
    with ⟨_ | t, s⟩ <;> rw [run] at result furthest <;> dsimp only at result furthest ⊢ <;>
    rw [result, ← furthest] <;> rfl

/-- **An error names the token at the place**, or the end of the source if there is none. -/
theorem error_at_blamed (failed : g.parseTokens tokens = .error e) :
    let p := Parser.positionAt tokens.toArray (Parser.blamed g tokens)
    let found := tokens[Parser.blamed g tokens]?.map toString
    e = .failed p found ∨ e = .incomplete p found := by
  unfold parseTokens Parser.finish at failed
  unfold Parser.blamed
  rcases run : Parser.rule g tokens.toArray (Parser.depthBound g tokens.toArray) g.entry {}
    with ⟨_ | t, s⟩ <;> rw [run] at failed <;> dsimp only at failed ⊢
  · exact .inl (by simpa using (Except.error.inj failed).symm)
  · split at failed
    · exact .inr (by simpa using (Except.error.inj failed).symm)
    · cases failed

section

variable (inside : k < u.length) (same : (u.take (k + 1)).map Token.face = (v.take (k + 1)).map Token.face)
include same

theorem shown_of_same : v[k]?.map toString = u[k]?.map toString := by
  have shown : (toString : Token → String) = (fun f => f.1 ++ "('" ++ f.2.1 ++ "')") ∘ Token.face := rfl
  rw [shown, ← Option.map_map, ← Option.map_map, face_of_same same (Nat.le_refl k)]

include inside

theorem positionAt_of_same : Parser.positionAt v.toArray k = Parser.positionAt u.toArray k := by
  have faces := face_of_same same (Nat.le_refl k)
  simp only [List.getElem?_eq_getElem inside, List.getElem?_eq_getElem (inside_of_same inside same),
    Option.map_some, Option.some.injEq] at faces
  simp only [Parser.positionAt, List.getElem?_toArray, List.getElem?_eq_getElem inside,
    List.getElem?_eq_getElem (inside_of_same inside same)]
  exact congrArg (·.2.2.first) faces

end

/-- **An error depends on nothing behind the token that it names.** If the tokens cannot be parsed and the place
that is named is that of a token, then the error names this token; and other tokens that are the same up to
this one, but for their values, cannot be parsed either, with the same error. -/
theorem parseTokens_of_blamed (failed : g.parseTokens u = .error e) (inside : Parser.blamed g u < u.length)
    (same : (u.take (Parser.blamed g u + 1)).map Token.face = (v.take (Parser.blamed g u + 1)).map Token.face) :
    (e = .failed u[Parser.blamed g u].span.first (some (toString u[Parser.blamed g u]))
        ∨ e = .incomplete u[Parser.blamed g u].span.first (some (toString u[Parser.blamed g u])))
      ∧ g.parseTokens v = .error e ∧ Parser.blamed g v = Parser.blamed g u := by
  obtain ⟨k, place⟩ : ∃ k, Parser.blamed g u = k := ⟨_, rfl⟩
  have named := error_at_blamed failed
  simp only [place] at inside same named ⊢
  have inside' := inside_of_same inside same
  refine ⟨by simpa [Parser.positionAt, inside] using named, ?_⟩
  have alike := rule_likewise inside same g [] g.entry (Nat.zero_le _)
  rw [blamed_eq] at place ⊢
  rw [parseTokens_eq_parsePlainly] at failed ⊢
  unfold parsePlainly verdict at failed ⊢
  -- no token was looked at behind the one that is named
  obtain ⟨reach, meets⟩ : _ ∧ _ := alike <| by
    refine Nat.le_trans ?_ (Nat.le_of_eq place)
    split
    · exact Nat.le_refl _
    · exact Nat.le_max_left ..
  rw [reach]
  generalize (rule g u [] g.entry 0).reach = reach at *
  generalize (rule g u [] g.entry 0).result = result at meets failed place
  generalize (rule g v [] g.entry 0).result = result' at meets ⊢
  cases meets with
  | none =>
    dsimp only at place failed ⊢
    subst place
    rw [positionAt_of_same inside same, shown_of_same same]
    exact ⟨failed, rfl⟩
  | @some _ _ next _ le =>
    dsimp only at place failed ⊢
    have behind : next ≤ k := place ▸ Nat.le_max_right ..
    rw [if_pos (by omega), place] at failed
    rw [if_pos (by omega), place, positionAt_of_same inside same, shown_of_same same]
    exact ⟨failed, rfl⟩

/-- A grammar of one sentence, a name and a number. -/
def pair : Grammar where
  name := "pair"
  vocabulary := ⟨[], []⟩
  rules := #[⟨"pair", .choice
    [[{ symbol := .terminal "identifier" }, { symbol := .terminal "decimal_integer" }]]⟩]
  entry := 0
  warnings := []

/-- Two names and a number. -/
def tooMany : List Token :=
  [{ type := "identifier", lexeme := "f" }, { type := "identifier", lexeme := "g" },
   { type := "decimal_integer", lexeme := "1", literal := some (.int 1) }]

/-- The number makes no difference, as the second name is one too many. -/
theorem parseTokens_of_blamed_pair :
    Parser.blamed pair tooMany = 1
      ∧ pair.parseTokens (tooMany.take 2) = .error (.failed tooMany[1].span.first (some (toString tooMany[1]))) := by
  have run : rule pair tooMany [] pair.entry 0 = ⟨none, 1⟩ := 
    (rule_eq_body rfl (Nat.zero_le _) List.not_mem_nil).trans rfl
  have place : Parser.blamed pair tooMany = 1 := by rw [blamed_eq, run]
  have failed : pair.parseTokens tooMany
      = .error (.failed tooMany[1].span.first (some (toString tooMany[1]))) := by
    rw [parseTokens_eq_parsePlainly, parsePlainly, run]
    rfl
  have others := parseTokens_of_blamed (v := tooMany.take 2) failed (by rw [place]; decide) (by rw [place]; rfl)
  exact ⟨place, others.2.1⟩

end Grammar

end Polyglot
