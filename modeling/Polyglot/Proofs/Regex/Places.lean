import Polyglot.Proofs.Regex.Matching
import Polyglot.Regex.Class

/-!
# Places of groups

A capturing group knows its place, which is all that tells it from another group with the same body:
what alternatives have in common is taken out in front of them, and two groups are never the same.
So the places matter to the form of an expression only as far as they are different, and not to
what it matches at all.

Here all groups of an expression are moved one place on (`Regex.moved`), as they are when a character
is put behind the text that it is read from. The functions that build expressions do not see the
difference (`moved_concat`, `moved_alternation`, `moved_repetition`), and neither do texts
(`matches_moved`).
-/

namespace Polyglot.Regex

/-- The expression with all its groups one place further on. -/
def moved : Regex → Regex
  | cat first second => cat first.moved second.moved
  | alt left right => alt left.moved right.moved
  | repeated low high greedy body => repeated low high greedy body.moved
  | capture place body => capture (place + 1) body.moved
  | r => r

theorem moved_cat (first second : Regex) : (cat first second).moved = cat first.moved second.moved := rfl

theorem moved_alt (left right : Regex) : (alt left right).moved = alt left.moved right.moved := rfl

theorem moved_repeated (low : Nat) (high : Option Nat) (greedy : Bool) (body : Regex) :
    (repeated low high greedy body).moved = repeated low high greedy body.moved := rfl

theorem moved_chars (cs : List Char) : (chars cs).moved = chars cs := rfl

/-- Groups that were different stay different. -/
theorem moved_injective : Function.Injective moved := by
  intro r s same
  induction r generalizing s with
  | cat first second ih ih' =>
    cases s with
    | cat =>
      obtain ⟨same, same'⟩ := cat.inj same
      rw [ih same, ih' same']
    | _ => cases same
  | alt left right ih ih' =>
    cases s with
    | alt =>
      obtain ⟨same, same'⟩ := alt.inj same
      rw [ih same, ih' same']
    | _ => cases same
  | repeated low high greedy body ih =>
    cases s with
    | repeated =>
      obtain ⟨rfl, rfl, rfl, same'⟩ := repeated.inj same
      rw [ih same']
    | _ => cases same
  | capture place body ih =>
    cases s with
    | capture =>
      obtain ⟨place, same'⟩ := capture.inj same
      rw [Nat.succ.inj place, ih same']
    | _ => cases same
  | _ =>
    cases s with
    | cat | alt | repeated | capture => cases same
    | _ => exact same

/-- **What is matched** does not depend on the places of groups. -/
@[simp] theorem matches_moved (r : Regex) : r.moved.Matches = r.Matches := by
  induction r with
  | cat first second ih ih' =>
    funext before text after
    simp only [moved_cat, Matches, ih, ih']
  | alt left right ih ih' =>
    funext before text after
    simp only [moved_alt, Matches, ih, ih']
  | repeated low high greedy body ih =>
    funext before text after
    simp only [moved_repeated, Matches, ih]
  | capture place body ih => exact ih
  | _ => rfl

@[simp] theorem isSilent_moved (r : Regex) : r.moved.isSilent = r.isSilent := by
  induction r with
  | cat first second ih ih' => simp only [moved_cat, isSilent, ih, ih']
  | alt left right ih ih' => simp only [moved_alt, isSilent, ih, ih']
  | repeated low high greedy body ih => exact ih
  | capture place body ih => exact ih
  | _ => rfl

theorem factors_moved (r : Regex) : r.moved.factors = r.factors.map moved := by
  induction r with
  | cat first second ih ih' => simp only [moved_cat, factors, ih, ih', List.map_append]
  | _ => rfl

theorem branches_moved (r : Regex) : r.moved.branches = r.branches.map moved := by
  induction r with
  | alt left right ih ih' => simp only [moved_alt, branches, ih, ih', List.map_append]
  | _ => rfl

variable {rs : List Regex}

theorem flatMap_map_moved {f : Regex → List Regex} (one : ∀ r, f r.moved = (f r).map moved) :
    (rs.map moved).flatMap f = (rs.flatMap f).map moved := by
  rw [List.flatMap_map, List.map_flatMap]
  exact congrArg (List.flatMap · rs) (funext one)

/-! ## Rows -/

theorem moved_row (rs : List Regex) : (row rs).moved = row (rs.map moved) := by
  induction rs with
  | nil => rfl
  | cons r rs ih =>
    cases rs with
    | nil => rfl
    | cons s rs => exact congrArg (cat r.moved) ih

theorem joinTexts_map_moved (rs : List Regex) : joinTexts (rs.map moved) = (joinTexts rs).map moved := by
  induction rs with
  | nil => rfl
  | cons r rs ih =>
    cases r with
    | chars cs =>
      simp only [List.map_cons, moved_chars, joinTexts, ih]
      cases joinTexts rs with
      | nil => rfl
      | cons s rest => cases s <;> rfl
    | _ => exact congrArg (List.cons _) ih

theorem moved_concat (rs : List Regex) : (concat rs).moved = concat (rs.map moved) := by
  rw [concat, moved_row, ← joinTexts_map_moved, ← flatMap_map_moved factors_moved, concat]

/-! ## Choices -/

theorem moved_oneOf (s : CharSet) : (oneOf s).moved = oneOf s := by
  unfold oneOf
  split <;> rfl

theorem moved_choice (rs : List Regex) : (choice rs).moved = choice (rs.map moved) := by
  induction rs with
  | nil => rfl
  | cons r rs ih =>
    cases rs with
    | nil => rfl
    | cons s rs => exact congrArg (alt r.moved) ih

theorem charSet?_moved (r : Regex) : r.moved.charSet? = r.charSet? := by
  cases r <;> rfl

theorem set?_moved (r : Regex) : r.moved.set? = r.set? := by
  cases r <;> rfl

theorem mapM_map_moved {f : Regex → Option CharSet} (one : ∀ r, f r.moved = f r) (rs : List Regex) :
    (rs.map moved).mapM f = rs.mapM f := by
  induction rs with
  | nil => rfl
  | cons r rs ih => rw [List.map_cons, List.mapM_cons, List.mapM_cons, one, ih]

theorem moved_flatAlternation (rs : List Regex) :
    (flatAlternation rs).moved = flatAlternation (rs.map moved) := by
  unfold flatAlternation
  dsimp only
  rw [flatMap_map_moved branches_moved, mapM_map_moved charSet?_moved, mapM_map_moved set?_moved]
  split
  · exact moved_oneOf _
  · exact moved_oneOf _
  · exact moved_choice _

theorem commonLength_map_moved (rs ss : List Regex) :
    commonLength (rs.map moved) (ss.map moved) = commonLength rs ss := by
  induction rs generalizing ss with
  | nil => cases ss <;> rfl
  | cons r rs ih =>
    cases ss with
    | nil => rfl
    | cons s ss => simp only [List.map_cons, commonLength, moved_injective.eq_iff, ih]

theorem moved_alternation (rs : List Regex) : (alternation rs).moved = alternation (rs.map moved) := by
  have rows : ((rs.map moved).flatMap branches).map factors
      = ((rs.flatMap branches).map factors).map (List.map moved) := by
    rw [flatMap_map_moved branches_moved, List.map_map, List.map_map]
    exact List.map_congr_left fun r _ => factors_moved r
  unfold alternation
  dsimp only
  rw [rows]
  cases (rs.flatMap branches).map factors with
  | nil => exact moved_flatAlternation []
  | cons first others =>
    simp only [List.map_cons, List.map_map, List.foldl_map, commonLength_map_moved, List.length_map,
      List.isEmpty_map, List.any_cons, List.any_map, Function.comp_def, apply_ite moved,
      moved_flatAlternation, moved_concat, List.map_append, List.map_take, List.map_drop, List.map_nil]

/-! ## Repetitions -/

theorem moved_repetition (low : Nat) (high : Option Nat) (greedy : Bool) (body : Regex) :
    (repetition low high greedy body).moved = repetition low high greedy body.moved := by
  unfold repetition
  rw [isSilent_moved]
  simp only [apply_ite moved]
  rfl

end Polyglot.Regex
