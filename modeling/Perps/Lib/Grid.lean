import Mathlib

/-! Rounding half up to the multiples of `1 / s`, over any ordered field with a
floor. A value that is already a multiple is left alone, rounding is monotone,
moves a value by at most half a step, and commutes with adding a multiple; the
sum of two rounded values is the rounded sum unless the fractions carry. -/

namespace Lib

section Multiples

variable {K : Type*} [Field K]

/-- The multiples of `1 / s`. -/
def OnGrid (s x : K) : Prop := ∃ k : ℤ, x = k / s

theorem OnGrid.zero (s : K) : OnGrid s 0 := ⟨0, by simp⟩

theorem OnGrid.add {s x y : K} (hx : OnGrid s x) (hy : OnGrid s y) : OnGrid s (x + y) := by
  obtain ⟨k, rfl⟩ := hx
  obtain ⟨l, rfl⟩ := hy
  exact ⟨k + l, by push_cast; ring⟩

theorem OnGrid.neg {s x : K} (hx : OnGrid s x) : OnGrid s (-x) := by
  obtain ⟨k, rfl⟩ := hx
  exact ⟨-k, by push_cast; ring⟩

theorem OnGrid.sub {s x y : K} (hx : OnGrid s x) (hy : OnGrid s y) : OnGrid s (x - y) := by
  rw [sub_eq_add_neg]
  exact hx.add hy.neg

variable [LinearOrder K]

theorem OnGrid.min {s x y : K} (hx : OnGrid s x) (hy : OnGrid s y) : OnGrid s (min x y) := by
  rcases min_choice x y with h | h <;> rw [h] <;> assumption

end Multiples

variable {K : Type*} [Field K] [LinearOrder K] [FloorRing K]

/-- The integer nearest to `x`, a half going up. -/
def roundHalfUp (x : K) : ℤ := ⌊x + 1 / 2⌋

/-- `x` rounded to a multiple of `1 / s`. -/
def roundTo (s x : K) : K := (roundHalfUp (x * s) : K) / s

theorem roundTo_onGrid (s x : K) : OnGrid s (roundTo s x) := ⟨_, rfl⟩

variable [IsStrictOrderedRing K]

theorem roundHalfUp_intCast (k : ℤ) : roundHalfUp (k : K) = k := by
  unfold roundHalfUp
  rw [Int.floor_eq_iff]
  constructor <;> norm_num

theorem roundHalfUp_mono {x y : K} (h : x ≤ y) : roundHalfUp x ≤ roundHalfUp y :=
  Int.floor_le_floor (by linarith)

theorem abs_roundHalfUp_sub_le (x : K) : |(roundHalfUp x : K) - x| ≤ 1 / 2 := by
  have h1 := Int.floor_le (x + 1 / 2)
  have h2 := Int.lt_floor_add_one (x + 1 / 2)
  rw [roundHalfUp, abs_le]
  constructor <;> linarith

theorem roundHalfUp_eq_iff {x : K} {k : ℤ} :
    roundHalfUp x = k ↔ (k : K) - 1 / 2 ≤ x ∧ x < k + 1 / 2 := by
  unfold roundHalfUp
  rw [Int.floor_eq_iff]
  constructor <;> rintro ⟨h1, h2⟩ <;> constructor <;> linarith

/-- A value is rounded by its fraction. -/
theorem roundHalfUp_eq_floor_add (x : K) :
    roundHalfUp x = ⌊x⌋ + if Int.fract x < 1 / 2 then 0 else 1 := by
  have h0 := Int.fract_nonneg x
  have h1 := Int.fract_lt_one x
  have hx := Int.floor_add_fract x
  rw [roundHalfUp_eq_iff]
  split_ifs with h <;> push_cast <;> constructor <;> linarith

/-- The two fractions round down but make up a half, or round up but lack a half of two. -/
def Carries (x y : K) : Prop :=
  (Int.fract x < 1 / 2 ∧ Int.fract y < 1 / 2 ∧ 1 / 2 ≤ Int.fract x + Int.fract y) ∨
    (1 / 2 ≤ Int.fract x ∧ 1 / 2 ≤ Int.fract y ∧ Int.fract x + Int.fract y < 3 / 2)

/-- A sum is rounded to the sum of the rounded values, unless the fractions carry. -/
theorem roundHalfUp_add_iff (x y : K) :
    roundHalfUp (x + y) = roundHalfUp x + roundHalfUp y ↔ ¬ Carries x y := by
  have hx0 := Int.fract_nonneg x
  have hy0 := Int.fract_nonneg y
  have hx1 := Int.fract_lt_one x
  have hy1 := Int.fract_lt_one y
  have hx := Int.floor_add_fract x
  have hy := Int.floor_add_fract y
  rw [roundHalfUp_eq_floor_add x, roundHalfUp_eq_floor_add y, roundHalfUp_eq_iff]
  unfold Carries
  by_cases hdx : Int.fract x < 1 / 2 <;> by_cases hdy : Int.fract y < 1 / 2
  · rw [if_pos hdx, if_pos hdy]
    push_cast
    constructor
    · rintro ⟨-, h⟩ (⟨-, -, hc⟩ | ⟨hc, -⟩) <;> linarith
    · intro h
      have hsum : Int.fract x + Int.fract y < 1 / 2 := by
        by_contra hc
        exact h (Or.inl ⟨hdx, hdy, not_lt.mp hc⟩)
      constructor <;> linarith
  · -- one is rounded up and the other down: the sum of the fractions is near one
    rw [if_pos hdx, if_neg hdy]
    push_cast
    refine iff_of_true ⟨by linarith, by linarith⟩ ?_
    rintro (⟨-, hc, -⟩ | ⟨hc, -⟩) <;> linarith
  · rw [if_neg hdx, if_pos hdy]
    push_cast
    refine iff_of_true ⟨by linarith, by linarith⟩ ?_
    rintro (⟨hc, -⟩ | ⟨-, hc, -⟩) <;> linarith
  · rw [if_neg hdx, if_neg hdy]
    push_cast
    constructor
    · rintro ⟨h, -⟩ (⟨hc, -⟩ | ⟨-, -, hc⟩) <;> linarith
    · intro h
      have hsum : 3 / 2 ≤ Int.fract x + Int.fract y := by
        by_contra hc
        exact h (Or.inr ⟨not_lt.mp hdx, not_lt.mp hdy, not_le.mp hc⟩)
      constructor <;> linarith

variable {s : K}

theorem roundTo_of_onGrid (hs : 0 < s) {x : K} (hx : OnGrid s x) : roundTo s x = x := by
  obtain ⟨k, rfl⟩ := hx
  rw [roundTo, div_mul_cancel₀ _ hs.ne', roundHalfUp_intCast]

theorem roundTo_mono (hs : 0 < s) {x y : K} (h : x ≤ y) : roundTo s x ≤ roundTo s y := by
  unfold roundTo
  have hxy : roundHalfUp (x * s) ≤ roundHalfUp (y * s) :=
    roundHalfUp_mono (mul_le_mul_of_nonneg_right h hs.le)
  gcongr

theorem roundTo_nonneg (hs : 0 < s) {x : K} (h : 0 ≤ x) : 0 ≤ roundTo s x := by
  rw [← roundTo_of_onGrid hs (OnGrid.zero s)]
  exact roundTo_mono hs h

theorem roundTo_le (hs : 0 < s) {x y : K} (h : x ≤ y) (hy : OnGrid s y) : roundTo s x ≤ y := by
  rw [← roundTo_of_onGrid hs hy]
  exact roundTo_mono hs h

theorem abs_roundTo_sub_le (hs : 0 < s) (x : K) : |roundTo s x - x| ≤ 1 / 2 / s := by
  have h : roundTo s x - x = ((roundHalfUp (x * s) : K) - x * s) / s := by
    rw [roundTo, sub_div, mul_div_cancel_right₀ _ hs.ne']
  rw [h, abs_div, abs_of_pos hs]
  gcongr
  exact abs_roundHalfUp_sub_le _

/-- A grid point below one step from zero is zero. -/
theorem OnGrid.eq_zero_of_abs_lt (hs : 0 < s) {x : K} (hx : OnGrid s x) (h : |x| < 1 / s) :
    x = 0 := by
  obtain ⟨k, rfl⟩ := hx
  rw [abs_div, abs_of_pos hs, div_lt_div_iff_of_pos_right hs, ← Int.cast_abs] at h
  have hk : |k| < 1 := by exact_mod_cast h
  rw [Int.abs_lt_one_iff.mp hk]
  simp

/-- A positive grid point is at least one step. -/
theorem OnGrid.step_le (hs : 0 < s) {x : K} (hx : OnGrid s x) (h : 0 < x) : 1 / s ≤ x := by
  by_contra hlt
  have h0 := hx.eq_zero_of_abs_lt hs (by rw [abs_of_pos h]; exact not_le.mp hlt)
  exact h.ne' h0

end Lib
