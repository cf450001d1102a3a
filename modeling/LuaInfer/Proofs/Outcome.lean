/-!
# Computations that may fail

A computation ends with a value or an error. What it ends with is computed from what its parts end with, and a
computation that ends with a value is taken apart into parts that do.
-/

namespace LuaInfer.Except

variable {ε ε' α β σ : Type}

/-! ## One part after the other -/

@[simp] theorem ok_bind (a : α) (f : α → Except ε β) : (Except.ok a >>= f) = f a := rfl

@[simp] theorem error_bind (e : ε) (f : α → Except ε β) : (Except.error e >>= f) = .error e := rfl

@[simp] theorem pure_eq_ok (a : α) : (pure a : Except ε α) = .ok a := rfl

@[simp] theorem throw_eq_error (e : ε) : (throw e : Except ε α) = .error e := rfl

@[simp] theorem ok_map (f : α → β) (a : α) : (Except.ok a : Except ε α).map f = .ok (f a) := rfl

@[simp] theorem error_map (f : α → β) (e : ε) : (Except.error e : Except ε α).map f = .error e := rfl

@[simp] theorem ok_mapError (f : ε → ε') (a : α) : (Except.ok a : Except ε α).mapError f = .ok a := rfl

@[simp] theorem error_mapError (f : ε → ε') (e : ε) : (Except.error e : Except ε α).mapError f = .error (f e) := rfl

theorem toOption_map (f : α → β) (x : Except ε α) :
    (x.map f).toOption = x.toOption.map f := by
  cases x <;> rfl

theorem map_ne_error {f : α → β} {x : Except ε α} {e : ε} (h : x ≠ .error e) :
    x.map f ≠ .error e := by
  cases x with
  | error _ => simpa [Except.map] using h
  | ok _ => simp [Except.map]

/-! ## Computations that return -/

/-- A computation of two parts returns if both do. -/
theorem bind_ok {x : Except ε α} {f : α → Except ε β} {b : β} (h : x >>= f = .ok b) :
    ∃ a, x = .ok a ∧ f a = .ok b := by
  cases x with
  | error e => cases h
  | ok a => exact ⟨a, rfl, h⟩

/-- What one round keeps, a whole fold keeps. -/
theorem foldlM_ok {f : σ → α → Except ε σ} (I : σ → Prop) {xs : List α} {acc acc' : σ}
    (hstep : ∀ x ∈ xs, ∀ a a', I a → f a x = .ok a' → I a') (hacc : I acc) (h : xs.foldlM f acc = .ok acc') :
    I acc' := by
  induction xs generalizing acc with
  | nil => cases h; exact hacc
  | cons x xs ih =>
    rw [List.foldlM_cons] at h
    obtain ⟨a, ha, h⟩ := bind_ok h
    exact ih (fun y hy => hstep y (by simp [hy])) (hstep x (by simp) _ _ hacc ha) h

theorem mapError_ok {f : ε → ε'} {x : Except ε α} {a : α} (h : x.mapError f = .ok a) :
    x = .ok a := by
  cases x with
  | error e => cases h
  | ok b => cases h; rfl

theorem map_ok {f : α → β} {x : Except ε α} {b : β} (h : x.map f = .ok b) :
    ∃ a, x = .ok a ∧ f a = b := by
  cases x with
  | error e => cases h
  | ok a => cases h; exact ⟨a, rfl, rfl⟩

/-- A fold that returns also returns with steps that return more often. -/
theorem foldlM_mono {f g : σ → α → Except ε σ} (hfg : ∀ a x b, f a x = .ok b → g a x = .ok b)
    {xs : List α} {a b : σ} (h : xs.foldlM f a = .ok b) : xs.foldlM g a = .ok b := by
  induction xs generalizing a with
  | nil => exact h
  | cons x xs ih =>
    rw [List.foldlM_cons] at h ⊢
    obtain ⟨c, hc, h⟩ := bind_ok h
    rw [hfg a x c hc]
    exact ih h

theorem exists_ok {x : Except ε α} {f : α → β} {b : β} (h : x.toOption.map f = some b) :
    ∃ a, x = .ok a ∧ f a = b := by
  cases x with
  | error e => cases h
  | ok a => exact ⟨a, rfl, Option.some.inj h⟩

/-- A fold returns if each round does, from what the rounds before it keep. -/
theorem foldlM_returns {f : σ → α → Except ε σ} (I : σ → Prop) {xs : List α} {acc : σ}
    (hstep : ∀ x ∈ xs, ∀ a, I a → ∃ a', f a x = .ok a' ∧ I a') (hacc : I acc) :
    ∃ acc', xs.foldlM f acc = .ok acc' ∧ I acc' := by
  induction xs generalizing acc with
  | nil => exact ⟨acc, rfl, hacc⟩
  | cons x xs ih =>
    obtain ⟨a, ha, hI⟩ := hstep x (by simp) acc hacc
    obtain ⟨acc', h, hI'⟩ := ih (fun y hy => hstep y (by simp [hy])) hI
    refine ⟨acc', ?_, hI'⟩
    rw [List.foldlM_cons, ha]
    exact h

end LuaInfer.Except
