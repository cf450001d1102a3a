import LuaInfer.Distinct
import Mathlib.Data.List.Forall2
import Mathlib.Data.List.Induction
/-!
# Lists

Lists without repetition: what `Distinct.append` keeps of its two sides, and `Distinct.concat`, which puts any number of lists
together. Lists that are related member by member.
-/

namespace LuaInfer

namespace Distinct

variable {α : Type} [DecidableEq α]

theorem append_of_subset {xs ys : List α} (h : ∀ y ∈ ys, y ∈ xs) : append xs ys = xs := by
  induction ys with
  | nil => rfl
  | cons y ys ih =>
    rw [append_cons, show add xs y = xs from if_pos (h y (by simp))]
    exact ih fun z hz => h z (by simp [hz])

theorem append_of_nodup {xs ys : List α} (hys : ys.Nodup) (hdis : ∀ y ∈ ys, y ∉ xs) : append xs ys = xs ++ ys := by
  induction ys generalizing xs with
  | nil => simp
  | cons y ys ih =>
    obtain ⟨hy, hys⟩ := List.nodup_cons.1 hys
    rw [append_cons, show add xs y = xs ++ [y] from if_neg (hdis y (by simp)), ih hys]
    · simp
    · intro z hz hmem
      rcases List.mem_append.1 hmem with h | h
      · exact hdis z (by simp [hz]) h
      · rw [List.mem_singleton] at h
        exact hy (h ▸ hz)

theorem isPrefix_append (xs ys : List α) : xs <+: append xs ys := by
  induction ys generalizing xs with
  | nil => exact List.prefix_rfl
  | cons y ys ih =>
    refine List.IsPrefix.trans ?_ (ih (add xs y))
    unfold add
    split
    · exact List.prefix_rfl
    · exact List.prefix_append _ _

theorem nil_append {ys : List α} (h : ys.Nodup) : append [] ys = ys := by
  rw [append_of_nodup h (by simp), List.nil_append]

/-- All lists one after the other, without repetition. -/
def concat (lists : List (List α)) : List α := lists.foldl append []

theorem append_append (xs ys zs : List α) : append xs (ys ++ zs) = append (append xs ys) zs :=
  List.foldl_append

theorem append_add (xs ys : List α) (z : α) : append xs (add ys z) = add (append xs ys) z := by
  by_cases hz : z ∈ ys
  · rw [add, if_pos hz, add, if_pos (mem_append.2 (.inr hz))]
  · rw [add, if_neg hz, append_append, append_cons, append_nil]

theorem append_assoc (xs ys zs : List α) : append (append xs ys) zs = append xs (append ys zs) := by
  induction zs generalizing ys with
  | nil => rfl
  | cons z zs ih => rw [append_cons, append_cons, ← append_add, ih]

theorem append_append_self (xs ys : List α) : append (append xs ys) ys = append xs ys :=
  append_of_subset fun _ hy => mem_append.2 (.inr hy)

theorem append_nil_append (xs ys : List α) : append xs (append [] ys) = append xs ys := by
  rw [← append_assoc, append_nil]

theorem foldl_append (xs : List α) (lists : List (List α)) : lists.foldl append xs = append xs (concat lists) := by
  have hconcat : ∀ (lists : List (List α)) (acc : List α),
      lists.foldl append (append xs acc) = append xs (lists.foldl append acc) := by
    intro lists
    induction lists with
    | nil => intro acc; rfl
    | cons l lists ih => intro acc; rw [List.foldl_cons, append_assoc, ih]; rfl
  exact hconcat lists []

theorem append_concat_cons (xs ys : List α) (lists : List (List α)) :
    append xs (concat (ys :: lists)) = append (append xs ys) (concat lists) := by
  rw [concat, List.foldl_cons, foldl_append, ← append_assoc, append_nil_append]

theorem nodup_concat (lists : List (List α)) : (concat lists).Nodup := by
  have hfold : ∀ (lists : List (List α)) (acc : List α), acc.Nodup → (lists.foldl append acc).Nodup := by
    intro lists
    induction lists with
    | nil => intro acc h; exact h
    | cons l lists ih => intro acc h; exact ih _ (nodup_append h l)
  exact hfold lists [] List.nodup_nil

theorem mem_concat {x : α} {lists : List (List α)} :
    x ∈ concat lists ↔ ∃ l ∈ lists, x ∈ l := by
  have happend : ∀ xs, x ∈ append xs (concat lists) ↔ x ∈ xs ∨ ∃ l ∈ lists, x ∈ l := by
    induction lists with
    | nil => simp [concat]
    | cons l lists ih =>
      intro xs
      rw [append_concat_cons, ih, mem_append, or_assoc]
      simp
  simpa using happend []

theorem append_eq_filter {xs ys : List α} (h : ys.Nodup) :
    append xs ys = xs ++ ys.filter (· ∉ xs) := by
  induction ys generalizing xs with
  | nil => simp
  | cons y ys ih =>
    obtain ⟨hy, hys⟩ := List.nodup_cons.1 h
    rw [append_cons, ih hys]
    by_cases hmem : y ∈ xs
    · rw [show add xs y = xs from if_pos hmem, List.filter_cons_of_neg (by simpa using hmem)]
    · rw [show add xs y = xs ++ [y] from if_neg hmem, List.filter_cons_of_pos (by simpa using hmem),
        List.append_assoc, List.singleton_append]
      -- the rest does not have `y`, so it is filtered alike
      congr 2
      refine List.filter_congr fun z hz => ?_
      have hne : z ≠ y := by rintro rfl; exact hy hz
      simp [hne]

/-- Members stand in the order of their first arrival. -/
theorem pairwise_idxOf (xs : List α) : (append [] xs).Pairwise fun x y => xs.idxOf x < xs.idxOf y := by
  induction xs using List.reverseRecOn with
  | nil => exact .nil
  | append_singleton xs x ih =>
    have hmem : ∀ y ∈ append [] xs, y ∈ xs := fun y hy => (mem_append.1 hy).resolve_left (by simp)
    have hold : ∀ y ∈ append [] xs, (xs ++ [x]).idxOf y = xs.idxOf y := fun y hy => List.idxOf_append_of_mem (hmem y hy)
    have hkeep : (append [] xs).Pairwise fun y z => (xs ++ [x]).idxOf y < (xs ++ [x]).idxOf z := by
      refine ih.imp_of_mem fun {y z} hy hz hlt => ?_
      rwa [hold y hy, hold z hz]
    rw [append_append, append_cons, append_nil, add]
    split
    · exact hkeep
    · next hx =>
      have hxs : x ∉ xs := fun h => hx (mem_append.2 (.inr h))
      refine List.pairwise_append.2 ⟨hkeep, List.pairwise_singleton _ _, fun y hy z hz => ?_⟩
      rw [List.mem_singleton.1 hz, hold y hy, List.idxOf_append_of_notMem hxs]
      exact Nat.lt_of_lt_of_le (List.idxOf_lt_length_of_mem (hmem y hy)) (Nat.le_add_right _ _)

end Distinct

end LuaInfer

/-! ## Members side by side -/

namespace List.Forall₂

variable {α β : Type} {R : α → β → Prop} {xs : List α} {ys : List β}

theorem exists_of_mem_left (h : List.Forall₂ R xs ys) {x : α} (hx : x ∈ xs) : ∃ y ∈ ys, R x y := by
  induction h with
  | nil => cases hx
  | cons hxy _ ih =>
    rcases List.mem_cons.1 hx with rfl | hx
    · exact ⟨_, by simp, hxy⟩
    · obtain ⟨y, hy, hxy⟩ := ih hx
      exact ⟨y, by simp [hy], hxy⟩

theorem exists_of_mem_right (h : List.Forall₂ R xs ys) {y : β} (hy : y ∈ ys) : ∃ x ∈ xs, R x y :=
  exists_of_mem_left h.flip hy

end List.Forall₂
