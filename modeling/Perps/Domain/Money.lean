import Perps.Lib.Grid

/-! Monetary values are plain numbers, read as exact rationals. `q` rounds to
eight decimals, half up. -/

namespace Perps

open Lib

def SCALE : ℚ := 10 ^ 8

/-- `Math.round(n * SCALE) / SCALE`. -/
def q (n : ℚ) : ℚ := (roundHalfUp (n * SCALE) : ℚ) / SCALE

def sign (n : ℚ) : ℤ := if n > 0 then 1 else if n < 0 then -1 else 0

/-- Multiples of `10 ^ (-8)`. -/
abbrev Grid (x : ℚ) : Prop := OnGrid SCALE x

theorem SCALE_pos : 0 < SCALE := by norm_num [SCALE]

@[simp] theorem grid_q (x : ℚ) : Grid (q x) := roundTo_onGrid SCALE x

@[simp] theorem grid_zero : Grid 0 := OnGrid.zero SCALE

theorem q_of_grid {x : ℚ} (hx : Grid x) : q x = x := roundTo_of_onGrid SCALE_pos hx

theorem grid_iff {x : ℚ} : Grid x ↔ q x = x := ⟨q_of_grid, fun h => h ▸ grid_q x⟩

instance : DecidablePred (OnGrid SCALE) := fun _ => decidable_of_iff _ grid_iff.symm

@[simp] theorem q_zero : q 0 = 0 := q_of_grid grid_zero

theorem q_mono {x y : ℚ} (h : x ≤ y) : q x ≤ q y := roundTo_mono SCALE_pos h

theorem q_nonneg {x : ℚ} (h : 0 ≤ x) : 0 ≤ q x := roundTo_nonneg SCALE_pos h

theorem q_le {x y : ℚ} (h : x ≤ y) (hy : Grid y) : q x ≤ y := roundTo_le SCALE_pos h hy

/-- Half a step, the most that one rounding moves a value. -/
def halfStep : ℚ := 1 / 2 / SCALE

theorem halfStep_nonneg : 0 ≤ halfStep := by norm_num [halfStep, SCALE]

theorem abs_q_sub_le (x : ℚ) : |q x - x| ≤ halfStep := abs_roundTo_sub_le SCALE_pos x

theorem q_le_add (x : ℚ) : q x ≤ x + halfStep := by
  have := (abs_le.mp (abs_q_sub_le x)).2
  linarith

theorem sub_le_q (x : ℚ) : x - halfStep ≤ q x := by
  have := (abs_le.mp (abs_q_sub_le x)).1
  linarith

/-- A grid point comes out of the rounding of a sum. -/
theorem q_grid_add {x : ℚ} (hx : Grid x) (y : ℚ) : q (x + y) = x + q y := by
  obtain ⟨k, rfl⟩ := hx
  have hshift : ((k : ℚ) / SCALE + y) * SCALE = k + y * SCALE := by
    rw [add_mul, div_mul_cancel₀ _ SCALE_pos.ne']
  unfold q roundHalfUp
  rw [hshift, add_assoc, Int.floor_intCast_add]
  push_cast
  ring

theorem Grid.eq_zero_of_abs_lt {x : ℚ} (hx : Grid x) (h : |x| < 1e-9) : x = 0 :=
  OnGrid.eq_zero_of_abs_lt SCALE_pos hx (h.trans (by norm_num [SCALE]))

theorem Grid.lt_of_pos {x : ℚ} (hx : Grid x) (h : 0 < x) : 1e-9 < x :=
  lt_of_lt_of_le (by norm_num [SCALE]) (OnGrid.step_le SCALE_pos hx h)

theorem Grid.sum {xs : List ℚ} (h : ∀ x ∈ xs, Grid x) : Grid xs.sum := by
  induction xs with
  | nil => exact grid_zero
  | cons x xs ih =>
    rw [List.sum_cons]
    exact (h x List.mem_cons_self).add (ih fun y hy => h y (List.mem_cons_of_mem _ hy))

theorem Grid.of_int (k : ℤ) : Grid k := ⟨k * 10 ^ 8, by push_cast; rw [SCALE]; norm_num⟩

end Perps
