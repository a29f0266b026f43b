import Polyglot.Proofs.B.Semantics
import Polyglot.Proofs.Machine.Views

/-!
# The machine doing what a computation does

A place in a program, with a view, *simulates* a computation (`Simulates`) if the
machine does from there what the computation does: it comes to a place and a view that
go with the result, with the same output; or it comes to a division by zero; or, if the
allowance of the computation is used up, it has gone on for a number of steps and has
the same output. Of a computation that has no meaning nothing is asked.

Computations are put together by `Run.andThen`, and so are the places that simulate
them (`Simulates.andThen`). What is between them is code that does something which the
computation knows nothing about (`Simulates.goes`).
-/

namespace Polyglot.B

open Polyglot.Machine (Register Setup State View Memory)

variable {x : Setup} {α β : Type}

/-- Whether a machine does what a computation with this outcome does. If the computation
uses up its allowance, the machine takes at least `j` steps. -/
def Follows (x : Setup) (j : Nat) (post : α → Nat → View → Prop) (s : State) :
    Except Stop α × Array UInt8 → Prop
  | (.ok a, output) => ∃ m s' n' v', s.Advances m s' ∧ x.Shows s' n' v' ∧ v'.output = output
      ∧ post a n' v'
  | (.error .divisionByZero, output) => ∃ m s' s'' a, s.Advances m s'
      ∧ s'.step = (s'', .error (.divisionByZero a)) ∧ s''.output = output
  | (.error .exhausted, output) => ∃ m s', j ≤ m ∧ s.Advances m s' ∧ s'.output = output
  | (.error .undefined, _) => True

/-- Whether the machine does from a place and a view on what a computation does. -/
def Simulates (x : Setup) (j n : Nat) (v : View) (run : Run α) (post : α → Nat → View → Prop) :
    Prop :=
  ∀ s, x.Shows s n v → ¬ s.Overflows → Follows x j post s (run v.output)

/-- A machine that has gone some steps does what it does afterwards. -/
theorem Follows.of_advances {i j m : Nat} {post : α → Nat → View → Prop} {s s' : State}
    {outcome : Except Stop α × Array UInt8} (advances : s.Advances m s') (le : i ≤ m + j)
    (h : Follows x j post s' outcome) : Follows x i post s outcome := by
  rcases outcome with ⟨(_ | _ | _) | a, output⟩
  · obtain ⟨m', t, t', a, advances', rest⟩ := h
    exact ⟨m + m', t, t', a, advances.trans advances', rest⟩
  · obtain ⟨m', t, le', advances', eq⟩ := h
    exact ⟨m + m', t, by omega, advances.trans advances', eq⟩
  · trivial
  · obtain ⟨m', t, n', v', advances', rest⟩ := h
    exact ⟨m + m', t, n', v', advances.trans advances', rest⟩

namespace Simulates

variable {i j n n' : Nat} {v v' : View} {run : Run α}
  {f : α → Run β} {post post' : α → Nat → View → Prop} {postOf : β → Nat → View → Prop}

theorem give {a : α} (h : post a n v) : Simulates x j n v (.give a) post :=
  fun s shows _ => ⟨0, s, n, v, rfl, shows, rfl, h⟩

theorem undefined : Simulates x j n v (.stop .undefined) post := fun _ _ _ => trivial

theorem exhausted : Simulates x 0 n v (.stop .exhausted) post :=
  fun s shows _ => ⟨0, s, Nat.le_refl _, rfl, shows.output⟩

theorem divisionByZero (h : x.Faults n v v.output) :
    Simulates x j n v (.stop .divisionByZero) post := h

theorem print {word : Int32} {post : Unit → Nat → View → Prop} (h : x.Goes 0 n v n' v')
    (printed : v'.output = State.printWord v.output word) (h' : post () n' v') :
    Simulates x j n v (.print word) post := by
  intro s shows keeps
  obtain ⟨m, t, -, advances, shows'⟩ := h s shows keeps
  exact ⟨m, t, n', v', advances, shows', printed, h'⟩

/-- What is always true may be used. -/
theorem of_sound (h : x.Sound v → Simulates x j n v run post) : Simulates x j n v run post :=
  fun s shows keeps => h shows.sound s shows keeps

/-- Code that prints nothing may come first. -/
theorem goes (first : x.Goes i n v n' v') (silent : v'.output = v.output)
    (h : Simulates x j n' v' run post) : Simulates x (i + j) n v run post := by
  intro s shows keeps
  obtain ⟨m, t, le, advances, shows'⟩ := first s shows keeps
  have follows := h t shows' fun overflows => keeps (advances.overflows overflows)
  rw [silent] at follows
  exact follows.of_advances advances (by omega)

/-- The same without counting the steps. -/
theorem goes_free (first : x.Goes i n v n' v') (silent : v'.output = v.output)
    (h : Simulates x j n' v' run post) : Simulates x j n v run post :=
  Nat.zero_add j ▸ goes (first.mono (Nat.zero_le i)) silent h

theorem mono (h : Simulates x j n v run post) (le : i ≤ j) : Simulates x i n v run post :=
  fun s shows keeps => (h s shows keeps).of_advances (m := 0) rfl (by omega)

theorem weaken (h : Simulates x j n v run post) (implies : ∀ a n' v', post a n' v' → post' a n' v') :
    Simulates x j n v run post' := by
  intro s shows keeps
  have follows := h s shows keeps
  generalize run v.output = outcome at follows ⊢
  rcases outcome with ⟨(_ | _ | _) | a, output⟩
  · exact follows
  · exact follows
  · trivial
  · obtain ⟨m, t, n', v', advances, shows', eq, post⟩ := follows
    exact ⟨m, t, n', v', advances, shows', eq, implies a n' v' post⟩

/-- **One computation after another** is simulated by one place after another. -/
theorem andThen (h : Simulates x j n v run post)
    (next : ∀ a n' v', post a n' v' → Simulates x j n' v' (f a) postOf) :
    Simulates x j n v (run.andThen f) postOf := by
  intro s shows keeps
  have follows := h s shows keeps
  unfold Run.andThen
  generalize run v.output = outcome at follows ⊢
  rcases outcome with ⟨(_ | _ | _) | a, output⟩
  · exact follows
  · exact follows
  · trivial
  · obtain ⟨m, t, n', v', advances, shows', rfl, post⟩ := follows
    have rest := next a n' v' post t shows' fun overflows => keeps (advances.overflows overflows)
    exact rest.of_advances advances (by omega)

/-- Code that prints nothing may come last. -/
theorem andGoes (h : Simulates x j n v run post)
    (next : ∀ a n' v', x.Sound v' → post a n' v' →
      ∃ n'' v'', x.Goes 0 n' v' n'' v'' ∧ v''.output = v'.output ∧ post' a n'' v'') :
    Simulates x j n v run post' := by
  intro s shows keeps
  have follows := h s shows keeps
  generalize run v.output = outcome at follows ⊢
  rcases outcome with ⟨(_ | _ | _) | a, output⟩
  · exact follows
  · exact follows
  · trivial
  · obtain ⟨m, t, n', v', advances, shows', rfl, post⟩ := follows
    obtain ⟨n'', v'', goes, eq, post'⟩ := next a n' v' shows'.sound post
    obtain ⟨m', t', -, advances', shows''⟩ :=
      goes t shows' fun overflows => keeps (advances.overflows overflows)
    exact ⟨m + m', t', n'', v'', advances.trans advances', shows'', eq, post'⟩

end Simulates

end Polyglot.B
