/-!
# When a computation succeeds

Computations that may fail are put together by binding, and what is known about
the whole is that it succeeds. The lemmas of this module take it apart: the parts
have succeeded too, and with these values. Where it makes no difference what a failure is,
the computation is put together in the same way from what is left of the parts without it.
-/

namespace Except

variable {ε ε' α β : Type}

theorem bind_eq_ok {x : Except ε α} {f : α → Except ε β} {b : β} :
    x >>= f = .ok b ↔ ∃ a, x = .ok a ∧ f a = .ok b := by
  cases x <;> simp [bind, Except.bind]

/-- A computation fails where its first part fails, or else the second. -/
theorem bind_eq_error {x : Except ε α} {f : α → Except ε β} {e : ε} :
    x >>= f = .error e ↔ x = .error e ∨ ∃ a, x = .ok a ∧ f a = .error e := by
  cases x <;> simp [bind, Except.bind]

theorem map_eq_ok {x : Except ε α} {f : α → β} {b : β} :
    x.map f = .ok b ↔ ∃ a, x = .ok a ∧ f a = b := by
  cases x <;> simp [Except.map]

theorem map_eq_error {x : Except ε α} {f : α → β} {e : ε} :
    x.map f = .error e ↔ x = .error e := by
  cases x <;> simp [Except.map]

theorem mapError_eq_ok {x : Except ε α} {f : ε → ε'} {a : α} :
    x.mapError f = .ok a ↔ x = .ok a := by
  cases x with
  | error => exact ⟨nofun, nofun⟩
  | ok => exact ⟨fun eq => congrArg _ (ok.inj eq), fun eq => congrArg _ (ok.inj eq)⟩

theorem mapError_eq_error {x : Except ε α} {f : ε → ε'} {e : ε'} :
    x.mapError f = .error e ↔ ∃ reason, x = .error reason ∧ f reason = e := by
  cases x with
  | error reason =>
    refine ⟨fun eq => ⟨reason, rfl, error.inj eq⟩, ?_⟩
    rintro ⟨_, ⟨⟩, rfl⟩
    rfl
  | ok =>
    refine ⟨by rintro ⟨⟩, ?_⟩
    rintro ⟨_, ⟨⟩, _⟩

theorem pure_eq_ok {a b : α} : (pure a : Except ε α) = .ok b ↔ a = b := by
  simp [pure, Except.pure]

/-! ## Without the failures -/

@[simp] theorem toOption_ok (a : α) : (ok a : Except ε α).toOption = some a := rfl

@[simp] theorem toOption_error (e : ε) : (error e : Except ε α).toOption = none := rfl

@[simp] theorem toOption_pure (a : α) : (pure a : Except ε α).toOption = some a := rfl

@[simp] theorem toOption_bind (x : Except ε α) (f : α → Except ε β) :
    (x >>= f).toOption = x.toOption.bind fun a => (f a).toOption := by
  cases x <;> rfl

@[simp] theorem toOption_map (x : Except ε α) (f : α → β) :
    (x.map f).toOption = x.toOption.map f := by
  cases x <;> rfl

@[simp] theorem toOption_functor_map (x : Except ε α) (f : α → β) :
    (f <$> x).toOption = x.toOption.map f := by
  cases x <;> rfl

@[simp] theorem toOption_mapError (x : Except ε α) (f : ε → ε') :
    (x.mapError f).toOption = x.toOption := by
  cases x <;> rfl

theorem toOption_eq_some {x : Except ε α} {a : α} : x.toOption = some a ↔ x = .ok a := by
  cases x with
  | error => exact ⟨nofun, nofun⟩
  | ok => exact ⟨fun eq => congrArg _ (Option.some.inj eq), fun eq => congrArg _ (ok.inj eq)⟩

theorem toOption_mapM (f : α → Except ε β) (as : List α) :
    (as.mapM f).toOption = as.mapM fun a => (f a).toOption := by
  induction as with
  | nil => rfl
  | cons a as ih =>
    rw [List.mapM_cons, List.mapM_cons, toOption_bind]
    refine congrArg ((f a).toOption.bind ·) (funext fun b => ?_)
    rw [toOption_bind, ih]
    rfl

/-- Results that are there already succeed if all of them have. -/
theorem mapM_id_eq_ok {xs : List (Except ε α)} {as : List α} :
    xs.mapM id = .ok as ↔ xs = as.map .ok := by
  induction xs generalizing as with
  | nil => cases as <;> simp [pure, Except.pure]
  | cons x xs ih =>
    rw [List.mapM_cons]
    simp only [bind_eq_ok, pure_eq_ok, ih, id_eq]
    constructor
    · rintro ⟨a, rfl, as, rfl, rfl⟩
      rfl
    · intro eq
      obtain ⟨a, as, rfl, rfl, rfl⟩ := List.map_eq_cons_iff.1 eq.symm
      exact ⟨a, rfl, as, rfl, rfl⟩

/-- Results that are there already fail with one of them. -/
theorem mem_of_mapM_id {xs : List (Except ε α)} {e : ε} (failed : xs.mapM id = .error e) : .error e ∈ xs := by
  induction xs with
  | nil => cases failed
  | cons x xs ih =>
    rw [List.mapM_cons] at failed
    obtain failed | ⟨a, -, failed⟩ := bind_eq_error.1 failed
    · exact failed ▸ List.mem_cons_self
    obtain failed | ⟨as, -, failed⟩ := bind_eq_error.1 failed
    · exact List.mem_cons_of_mem _ (ih failed)
    · cases failed

end Except
