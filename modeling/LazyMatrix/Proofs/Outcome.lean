import LazyMatrix.Error

/-! Outcomes of computations that can end early, one step at a time, along a list, and two of them side
by side. -/

namespace LazyMatrix

variable {ε α β : Type}

@[simp] theorem ok_bind (a : α) (f : α → Except ε β) : (Except.ok a >>= f) = f a := rfl

@[simp] theorem error_bind (e : ε) (f : α → Except ε β) : (Except.error e >>= f) = .error e := rfl

@[simp] theorem pure_eq_ok (a : α) : (pure a : Except ε α) = .ok a := rfl

@[simp] theorem throw_eq_error (e : ε) : (throw e : Except ε α) = .error e := rfl

theorem bind_eq_ok {x : Except ε α} {f : α → Except ε β} {b : β} :
    (x >>= f) = .ok b ↔ ∃ a, x = .ok a ∧ f a = .ok b := by
  cases x <;> simp

@[simp] theorem mapError_ok {δ : Type} (a : α) (f : ε → δ) : (Except.ok a).mapError f = .ok a := rfl

@[simp] theorem mapError_error {δ : Type} (e : ε) (f : ε → δ) :
    (Except.error e : Except ε α).mapError f = .error (f e) := rfl

@[simp] theorem mapError_eq_ok {δ : Type} {x : Except ε α} {f : ε → δ} {a : α} :
    x.mapError f = .ok a ↔ x = .ok a := by
  cases x <;> simp

section

variable {f : α → Except ε Unit}

theorem bind_unit_eq_ok_iff {x y : Except ε Unit} :
    (x >>= fun _ => y) = .ok () ↔ x = .ok () ∧ y = .ok () := by
  cases x <;> simp

theorem bind_unit_eq_error_iff {x y : Except ε Unit} {e : ε} :
    (x >>= fun _ => y) = .error e ↔ x = .error e ∨ x = .ok () ∧ y = .error e := by
  cases x <;> simp

theorem forM_eq_ok_iff {xs : List α} : forM xs f = .ok () ↔ ∀ x ∈ xs, f x = .ok () := by
  induction xs with
  | nil => simp
  | cons x xs ih => rw [List.forM_cons, bind_unit_eq_ok_iff, ih, List.forall_mem_cons]

theorem forM_eq_error_iff {xs : List α} {e : ε} :
    forM xs f = .error e ↔
      ∃ before x after, xs = before ++ x :: after ∧ (∀ y ∈ before, f y = .ok ()) ∧ f x = .error e := by
  induction xs with
  | nil => simp
  | cons x xs ih =>
    rw [List.forM_cons, bind_unit_eq_error_iff, ih]
    constructor
    · rintro (flaw | ⟨fine, before, y, after, rfl, fines, flaw⟩)
      · exact ⟨[], x, xs, rfl, by simp, flaw⟩
      · exact ⟨x :: before, y, after, rfl, List.forall_mem_cons.2 ⟨fine, fines⟩, flaw⟩
    · rintro ⟨_ | ⟨z, before⟩, y, after, split, fines, flaw⟩
      · obtain ⟨rfl, -⟩ := List.cons.inj split
        exact .inl flaw
      · obtain ⟨rfl, rfl⟩ := List.cons.inj split
        obtain ⟨fine, fines⟩ := List.forall_mem_cons.1 fines
        exact .inr ⟨fine, before, y, after, rfl, fines, flaw⟩

end

/-- Both are results, or both are failures, and they are related. -/
inductive Concord (E : ε → ε → Prop) (Q : α → β → Prop) : Except ε α → Except ε β → Prop where
  | ok {a : α} {b : β} (h : Q a b) : Concord E Q (.ok a) (.ok b)
  | error {e e' : ε} (h : E e e') : Concord E Q (.error e) (.error e')

section

variable {γ δ : Type} {E : ε → ε → Prop} {P Q : α → β → Prop} {R : γ → δ → Prop}
  {x : Except ε α} {y : Except ε β}

theorem Concord.mono (h : Concord E P x y) (le : ∀ a b, P a b → Q a b) : Concord E Q x y := by
  cases h with
  | ok h => exact .ok (le _ _ h)
  | error h => exact .error h

theorem concord_self {Q : α → α → Prop} (refl : ∀ a, Q a a) (x : Except ε α) :
    Concord Eq Q x x := by
  cases x with
  | ok a => exact .ok (refl a)
  | error e => exact .error rfl

theorem concord_of_eq {Q : α → α → Prop} (refl : ∀ a, Q a a) {x y : Except ε α} (same : y = x) :
    Concord Eq Q x y :=
  same ▸ concord_self refl y

theorem Concord.eq {x y : Except ε α} (h : Concord Eq Eq x y) : x = y := by
  cases h with
  | ok h => rw [h]
  | error h => rw [h]

theorem Concord.bind (h : Concord E P x y) {f : α → Except ε γ} {g : β → Except ε δ}
    (hf : ∀ a b, P a b → Concord E R (f a) (g b)) : Concord E R (x >>= f) (y >>= g) := by
  cases h with
  | ok h => exact hf _ _ h
  | error h => exact .error h

theorem Concord.bind_eq (h : Concord Eq P x y) {f : α → Except ε γ} {g : β → Except ε γ}
    (hf : ∀ a b, P a b → g b = f a) : (y >>= g) = (x >>= f) := by
  cases h with
  | ok h => exact hf _ _ h
  | error h => rw [h, error_bind, error_bind]

end

end LazyMatrix
