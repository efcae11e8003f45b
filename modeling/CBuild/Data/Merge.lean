import Mathlib.Data.List.Basic

/-! # Merges of two lists

The elements of two lists in one, each once, and those of each list in their order.
-/

namespace CBuild.Data

variable {α : Type*}

/-- The third list is made of the elements of the first two. -/
inductive Merge : List α → List α → List α → Prop
  | nil : Merge [] [] []
  | fst {xs ys zs : List α} (x : α) (rest : Merge xs ys zs) : Merge (x :: xs) ys (x :: zs)
  | snd {xs ys zs : List α} (y : α) (rest : Merge xs ys zs) : Merge xs (y :: ys) (y :: zs)

namespace Merge

variable {xs ys zs : List α}

theorem length_eq (merge : Merge xs ys zs) : zs.length = xs.length + ys.length := by
  induction merge with
  | nil => rfl
  | fst x rest ih => simp only [List.length_cons]; omega
  | snd y rest ih => simp only [List.length_cons]; omega

theorem fst_list (xs : List α) : Merge xs [] xs := by
  induction xs with
  | nil => exact .nil
  | cons x xs ih => exact .fst x ih

theorem snd_list (ys : List α) : Merge [] ys ys := by
  induction ys with
  | nil => exact .nil
  | cons y ys ih => exact .snd y ih

/-- More of the first list goes to the end. -/
theorem append_fst (merge : Merge xs ys zs) (more : List α) : Merge (xs ++ more) ys (zs ++ more) := by
  induction merge with
  | nil => exact fst_list more
  | fst x rest ih => exact .fst x ih
  | snd y rest ih => exact .snd y ih

/-- More of the second list goes to the end. -/
theorem append_snd (merge : Merge xs ys zs) (more : List α) : Merge xs (ys ++ more) (zs ++ more) := by
  induction merge with
  | nil => exact snd_list more
  | fst x rest ih => exact .fst x ih
  | snd y rest ih => exact .snd y ih

/-- A merge of the beginnings of two lists is one of the lists only if nothing is left of them. -/
theorem complete_iff (merge : Merge xs ys zs) (xs' ys' : List α) :
    Merge (xs ++ xs') (ys ++ ys') zs ↔ xs' = [] ∧ ys' = [] := by
  constructor
  · intro complete
    have whole := complete.length_eq
    have part := merge.length_eq
    simp only [List.length_append] at whole
    exact ⟨List.length_eq_zero_iff.mp (by omega), List.length_eq_zero_iff.mp (by omega)⟩
  · rintro ⟨rfl, rfl⟩
    simpa only [List.append_nil] using merge

end Merge

end CBuild.Data
