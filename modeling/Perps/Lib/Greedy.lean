import Mathlib

/-! Greedy allocation of a quantity to a list of capacities: each element takes
what it can of what is left, in order, until nothing is left. -/

namespace Lib

variable {α K : Type*} [AddCommGroup K] [LinearOrder K] (cap : α → K)

def greedy : List α → K → List (α × K)
  | [], _ => []
  | x :: xs, r => if 0 < r then (x, min r (cap x)) :: greedy xs (r - min r (cap x)) else []

theorem greedy_of_not_pos {r : K} (h : ¬ 0 < r) (xs : List α) : greedy cap xs r = [] := by
  cases xs with
  | nil => rfl
  | cons x xs => rw [greedy, if_neg h]

/-- The elements that take something are the first ones. -/
theorem greedy_initial (xs : List α) (r : K) : (greedy cap xs r).map Prod.fst <+: xs := by
  induction xs generalizing r with
  | nil => exact List.nil_prefix
  | cons x xs ih =>
    rw [greedy]
    split_ifs with h
    · rw [List.map_cons]
      exact (List.cons_prefix_cons).mpr ⟨rfl, ih _⟩
    · exact List.nil_prefix

/-- All of them but the last take their whole capacity. -/
theorem greedy_dropLast (xs : List α) (r : K) :
    ∀ f ∈ (greedy cap xs r).dropLast, f.2 = cap f.1 := by
  induction xs generalizing r with
  | nil => simp [greedy]
  | cons x xs ih =>
    rw [greedy]
    split_ifs with h
    · intro f hf
      rcases min_choice r (cap x) with hm | hm
      · -- nothing is left for a second element
        rw [hm, sub_self, greedy_of_not_pos cap (lt_irrefl 0)] at hf
        simp at hf
      · rw [hm] at hf
        cases hg : greedy cap xs (r - cap x) with
        | nil =>
          rw [hg] at hf
          simp at hf
        | cons g gs =>
          rw [hg, List.dropLast_cons_cons, List.mem_cons, ← hg] at hf
          rcases hf with rfl | hf
          · rfl
          · exact ih _ f hf
    · simp

/-- What is given out in all. -/
theorem greedy_sum [IsOrderedAddMonoid K] {xs : List α} (hcap : ∀ x ∈ xs, 0 ≤ cap x) {r : K} (hr : 0 ≤ r) :
    ((greedy cap xs r).map Prod.snd).sum = min r (xs.map cap).sum := by
  induction xs generalizing r with
  | nil => simp [greedy, hr]
  | cons x xs ih =>
    have hx := hcap x List.mem_cons_self
    have hxs : ∀ y ∈ xs, 0 ≤ cap y := fun y hy => hcap y (List.mem_cons_of_mem _ hy)
    have hsum : 0 ≤ (xs.map cap).sum := List.sum_nonneg (by simpa using hxs)
    rw [greedy, List.map_cons, List.sum_cons]
    split_ifs with h
    · rw [List.map_cons, List.sum_cons, ih hxs (sub_nonneg.mpr (min_le_left _ _))]
      rcases le_total r (cap x) with hle | hle
      · rw [min_eq_left hle, sub_self, min_eq_left hsum, add_zero,
          min_eq_left (hle.trans (le_add_of_nonneg_right hsum))]
      · rw [min_eq_right hle, ← min_add_add_left, add_sub_cancel]
    · obtain rfl : r = 0 := le_antisymm (not_lt.mp h) hr
      rw [min_eq_left (add_nonneg hx hsum)]
      rfl

end Lib
