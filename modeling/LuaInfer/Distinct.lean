/-!
# Lists without repetition

Members of a union, sites of a global, results of a search: each is a list in the order of first
arrival in which nothing stands twice. `add` and `append` keep a list so.
-/

namespace LuaInfer.Distinct

variable {α : Type} [DecidableEq α]

/-- Puts `x` at the end of `xs` unless it is there already. -/
def add (xs : List α) (x : α) : List α :=
  if x ∈ xs then xs else xs ++ [x]

/-- Adds the members of `ys` one after the other. -/
def append (xs ys : List α) : List α :=
  ys.foldl add xs

@[simp] theorem mem_add {xs : List α} {x y : α} : y ∈ add xs x ↔ y ∈ xs ∨ y = x := by
  unfold add
  split
  · constructor
    · exact .inl
    · rintro (h | rfl) <;> assumption
  · simp

@[simp] theorem append_nil (xs : List α) : append xs [] = xs := rfl

@[simp] theorem append_cons (xs ys : List α) (y : α) : append xs (y :: ys) = append (add xs y) ys := rfl

@[simp] theorem mem_append {xs ys : List α} {y : α} : y ∈ append xs ys ↔ y ∈ xs ∨ y ∈ ys := by
  induction ys generalizing xs with
  | nil => simp
  | cons a ys ih => simp [ih, or_assoc]

theorem nodup_add {xs : List α} (h : xs.Nodup) (x : α) : (add xs x).Nodup := by
  unfold add
  split
  · exact h
  · next hx => exact List.nodup_append.2 ⟨h, by simp, by rintro a ha b hb rfl; simp_all⟩

theorem nodup_append {xs : List α} (h : xs.Nodup) (ys : List α) : (append xs ys).Nodup := by
  induction ys generalizing xs with
  | nil => exact h
  | cons y ys ih => exact ih (nodup_add h y)

end LuaInfer.Distinct
