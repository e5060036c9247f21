import Perps.Domain.Accounts

/-! Locked collateral against what it stands for. A user's locked balance should
cover the margins of the resting orders and of the position; every release is
clamped to what is locked, and a fill moves its margin from an order to the
position or gives it back. No such step widens the gap between the two. -/

namespace Perps

open Lib

/-- One user's records, in the ranges the engine keeps them in. -/
structure AccountOK (b : Balance) (p : Position) : Prop where
  locked_grid : Grid b.locked
  margin_grid : Grid p.margin
  margin_nonneg : 0 ≤ p.margin
  size_grid : Grid p.size
  flat_margin : p.size = 0 → p.margin = 0

def AccountsOK (s : EngineState) : Prop := ∀ v, AccountOK (s.bal v) (s.pos v)

/-- A clamped release does not widen the gap to the obligations `S`. -/
theorem clamp_gap {l a S : ℚ} (haS : a ≤ S) : |l - min l a - (S - a)| ≤ |l - S| := by
  rcases le_total l a with h | h
  · have hS : l - S ≤ 0 := by linarith
    rw [min_eq_left h, abs_of_nonpos hS, abs_le]
    constructor <;> linarith
  · rw [min_eq_right h]
    exact le_of_eq (congrArg _ (by ring))

theorem release_locked {b : Balance} (hb : Grid b.locked) {a : ℚ} (ha : 0 ≤ a) (hg : Grid a) :
    (b.release a).locked = b.locked - min b.locked a := by
  show q (b.locked - b.moved a) = _
  rw [Balance.moved, max_eq_right ha, q_of_grid (hb.sub (hb.min hg))]

/-- What is left locked. -/
theorem release_locked_eq {b : Balance} (hb : Grid b.locked) {a : ℚ} (ha : 0 ≤ a) (hg : Grid a) :
    (b.release a).locked = max 0 (b.locked - a) := by
  rw [release_locked hb ha hg]
  rcases le_total b.locked a with h | h
  · rw [min_eq_left h, sub_self, max_eq_left (by linarith)]
  · rw [min_eq_right h, max_eq_right (by linarith)]

theorem release_gap {b : Balance} (hb : Grid b.locked) {a S : ℚ} (ha : 0 ≤ a) (hg : Grid a)
    (haS : a ≤ S) : |(b.release a).locked - (S - a)| ≤ |b.locked - S| := by
  rw [release_locked hb ha hg]
  exact clamp_gap haS

@[simp] theorem release_locked_grid (b : Balance) (a : ℚ) : Grid (b.release a).locked := grid_q _

@[simp] theorem refreshLiq_margin (mmr : ℚ) (p : Position) : (refreshLiq mmr p).margin = p.margin := by
  unfold refreshLiq
  split_ifs <;> rfl

@[simp] theorem refreshLiq_size (mmr : ℚ) (p : Position) : (refreshLiq mmr p).size = p.size := by
  unfold refreshLiq
  split_ifs <;> rfl

@[simp] theorem refreshLiq_realizedPnl (mmr : ℚ) (p : Position) :
    (refreshLiq mmr p).realizedPnl = p.realizedPnl := by
  unfold refreshLiq
  split_ifs <;> rfl

@[simp] theorem refreshLiq_entryPrice (mmr : ℚ) (p : Position) :
    (refreshLiq mmr p).entryPrice = p.entryPrice := by
  unfold refreshLiq
  split_ifs <;> rfl

/-! The quantities of an opposing fill -/

section Opposing

variable {p : Position} {f fm : ℚ}

theorem closedQty_le_size (p : Position) (f : ℚ) : p.closedQty f ≤ |p.size| := min_le_left _ _

theorem closedQty_le_fill (p : Position) (f : ℚ) : p.closedQty f ≤ f := min_le_right _ _

theorem closedQty_nonneg (p : Position) (hf : 0 < f) : 0 ≤ p.closedQty f :=
  le_min (abs_nonneg _) hf.le

/-- A share of at most one of a margin on the grid, rounded. -/
theorem share_bounds {a b x : ℚ} (ha : 0 ≤ a) (hb : 0 < b) (hab : a ≤ b) (hx : 0 ≤ x)
    (hg : Grid x) : 0 ≤ q (a / b * x) ∧ q (a / b * x) ≤ x := by
  have h0 : 0 ≤ a / b := div_nonneg ha hb.le
  have h1 : a / b ≤ 1 := (div_le_one hb).mpr hab
  exact ⟨q_nonneg (mul_nonneg h0 hx), q_le (by nlinarith) hg⟩

theorem marginFreed_bounds (h : p.size ≠ 0) (hf : 0 < f) (hm : 0 ≤ p.margin)
    (hg : Grid p.margin) : 0 ≤ p.marginFreed f ∧ p.marginFreed f ≤ p.margin :=
  share_bounds (closedQty_nonneg p hf) (abs_pos.mpr h) (closedQty_le_size p f) hm hg

theorem closedPortion_bounds (p : Position) (hf : 0 < f) (hm : 0 ≤ fm) (hg : Grid fm) :
    0 ≤ p.closedPortion f fm ∧ p.closedPortion f fm ≤ fm :=
  share_bounds (closedQty_nonneg p hf) hf (closedQty_le_fill p f) hm hg

theorem marginFreed_grid (p : Position) (f : ℚ) : Grid (p.marginFreed f) := grid_q _

theorem closedPortion_grid (p : Position) (f fm : ℚ) : Grid (p.closedPortion f fm) := grid_q _

/-- A fill that does not exceed the position is closed whole. -/
theorem closedPortion_of_le (hf : 0 < f) (hle : f ≤ |p.size|) (hg : Grid fm) :
    p.closedPortion f fm = fm := by
  rw [Position.closedPortion, Position.closedQty, min_eq_right hle, div_self hf.ne', one_mul,
    q_of_grid hg]

/-- A fill that exceeds the position frees all of its margin. -/
theorem marginFreed_of_ge (h : p.size ≠ 0) (hle : |p.size| ≤ f) (hg : Grid p.margin) :
    p.marginFreed f = p.margin := by
  rw [Position.marginFreed, Position.closedQty, min_eq_left hle, div_self (abs_pos.mpr h).ne',
    one_mul, q_of_grid hg]

theorem settled_grid (b : Balance) (p : Position) (price f fm : ℚ) :
    Grid (settled b p price f fm).locked := release_locked_grid _ _

/-- Both releases of an opposing fill, together. -/
theorem settled_gap {b : Balance} (hb : Grid b.locked) (h : p.size ≠ 0) (hf : 0 < f)
    (hpm : 0 ≤ p.margin) (hpg : Grid p.margin) (hm : 0 ≤ fm) (hmg : Grid fm) {S : ℚ}
    (hS : p.margin + fm ≤ S) (price : ℚ) :
    |(settled b p price f fm).locked - (S - p.marginFreed f - p.closedPortion f fm)| ≤
      |b.locked - S| := by
  obtain ⟨hfr0, hfr⟩ := marginFreed_bounds h hf hpm hpg
  obtain ⟨hcp0, hcp⟩ := closedPortion_bounds p hf hm hmg
  have h1 := release_gap hb hfr0 (grid_q _) (S := S) (by linarith)
  have h2 := release_gap (b := (b.release (p.marginFreed f)).add (p.pnl price f))
    (release_locked_grid _ _) hcp0 (grid_q _) (S := S - p.marginFreed f) (by linarith)
  exact h2.trans h1

theorem clamp_clamp {x a : ℚ} (ha : 0 ≤ a) : max 0 (max 0 x - a) = max 0 (x - a) := by
  rcases le_total x 0 with h | h
  · rw [max_eq_left h, max_eq_left (by linarith), max_eq_left (by linarith)]
  · rw [max_eq_right h]

/-- Both releases of an opposing fill, as one. -/
theorem settled_locked {b : Balance} (hb : Grid b.locked) (h : p.size ≠ 0) (hf : 0 < f)
    (hpm : 0 ≤ p.margin) (hpg : Grid p.margin) (hm : 0 ≤ fm) (hmg : Grid fm) (price : ℚ) :
    (settled b p price f fm).locked =
      max 0 (b.locked - p.marginFreed f - p.closedPortion f fm) := by
  have hfreed := (marginFreed_bounds h hf hpm hpg).1
  have hportion := (closedPortion_bounds p hf hm hmg).1
  rw [settled, release_locked_eq (b := (b.release (p.marginFreed f)).add (p.pnl price f))
    (release_locked_grid _ _) hportion (grid_q _)]
  show max 0 ((b.release (p.marginFreed f)).locked - p.closedPortion f fm) = _
  rw [release_locked_eq hb hfreed (grid_q _), clamp_clamp hportion]

/-- Opposing signs, spelt out. -/
theorem opposing_signs {side : Side} (h : p.size ≠ 0) (hf : 0 < f)
    (hs : sign p.size ≠ sign (signedQty side f)) :
    0 < p.size ∧ signedQty side f = -f ∨ p.size < 0 ∧ signedQty side f = f := by
  rcases lt_or_gt_of_ne h with hneg | hpos
  · cases side
    · exact Or.inr ⟨hneg, rfl⟩
    · simp [sign, signedQty, hneg, hneg.not_gt, hf, hf.not_gt] at hs
  · cases side
    · simp [sign, signedQty, hpos, hf] at hs
    · exact Or.inl ⟨hpos, rfl⟩

theorem agreeing_signs {side : Side} (h : p.size ≠ 0) (hf : 0 < f)
    (hs : sign p.size = sign (signedQty side f)) :
    0 < p.size ∧ signedQty side f = f ∨ p.size < 0 ∧ signedQty side f = -f := by
  rcases lt_or_gt_of_ne h with hneg | hpos
  · cases side
    · simp [sign, signedQty, hneg, hneg.not_gt, hf] at hs
    · exact Or.inr ⟨hneg, rfl⟩
  · cases side
    · exact Or.inl ⟨hpos, rfl⟩
    · simp [sign, signedQty, hpos, hf, hf.not_gt] at hs

theorem signedQty_ne_zero {f : ℚ} (hf : 0 < f) (side : Side) : signedQty side f ≠ 0 := by
  cases side
  · exact hf.ne'
  · exact (neg_lt_zero.mpr hf).ne

/-- A fill on its own side leaves the position open. -/
theorem agreeing_ne_zero {side : Side} (h : p.size ≠ 0) (hf : 0 < f)
    (hs : sign p.size = sign (signedQty side f)) : p.size + signedQty side f ≠ 0 := by
  rcases agreeing_signs h hf hs with ⟨hpos, hq⟩ | ⟨hneg, hq⟩
  · rw [hq]
    exact (add_pos hpos hf).ne'
  · rw [hq]
    linarith

theorem signedQty_grid {f : ℚ} (hf : Grid f) (side : Side) : Grid (signedQty side f) := by
  cases side
  · exact hf
  · exact hf.neg

/-- A fill that closes the position has its quantity. -/
theorem fill_eq_size {side : Side} (h : p.size ≠ 0) (hf : 0 < f)
    (hs : sign p.size ≠ sign (signedQty side f)) (hpg : Grid p.size) (hfg : Grid f)
    (h0 : |q (p.size + signedQty side f)| < 1e-9) : f = |p.size| := by
  have hzero := (grid_q (p.size + signedQty side f)).eq_zero_of_abs_lt h0
  rw [q_of_grid (hpg.add (signedQty_grid hfg side))] at hzero
  rcases opposing_signs h hf hs with ⟨hpos, hq⟩ | ⟨hneg, hq⟩
  · rw [abs_of_pos hpos]
    linarith
  · rw [abs_of_neg hneg]
    linarith

end Opposing

theorem ne_zero_of_not_small {x : ℚ} (h : ¬ |x| < 1e-9) : x ≠ 0 := by
  rintro rfl
  exact h (by norm_num)

/-- A fill changes the size by its signed quantity. -/
theorem fill_size {mmr : ℚ} {b : Balance} {p : Position} {side : Side} {price f fm lev : ℚ}
    {r : Option Balance × Position} (hr : FillCase mmr b p side price f fm lev r)
    (hp : Grid p.size) (hf : Grid f) : r.2.size = p.size + signedQty side f := by
  have hsum : Grid (p.size + signedQty side f) := hp.add (signedQty_grid hf side)
  cases hr with
  | opened h =>
    rw [refreshLiq_size, h, zero_add]
  | closed h hs h0 =>
    have hzero := (grid_q (p.size + signedQty side f)).eq_zero_of_abs_lt h0
    rw [q_of_grid hsum] at hzero
    exact hzero.symm
  | added | flipped | reduced =>
    rw [refreshLiq_size]
    exact q_of_grid hsum

/-- A fill keeps the records in range, and its gap to any further obligations
`X` is at most what it was with the fill's margin among them. -/
theorem fill_gap {mmr : ℚ} {b : Balance} {p : Position} {side : Side} {price f fm lev : ℚ}
    {r : Option Balance × Position} (hr : FillCase mmr b p side price f fm lev r)
    (hok : AccountOK b p) (hf : 0 < f) (hfg : Grid f) (hm : 0 ≤ fm) (hmg : Grid fm) {X : ℚ}
    (hX : 0 ≤ X) :
    AccountOK (r.1.getD b) r.2 ∧
      |(r.1.getD b).locked - (X + r.2.margin)| ≤ |b.locked - (X + p.margin + fm)| := by
  obtain ⟨hlg, hpg, hp0, hsg, hflat⟩ := hok
  have hsum : Grid (p.size + signedQty side f) := hsg.add (signedQty_grid hfg side)
  cases hr with
  | opened h =>
    refine ⟨⟨hlg, ?_, ?_, ?_, ?_⟩, ?_⟩ <;> simp only [refreshLiq_margin, refreshLiq_size]
    · exact grid_q _
    · exact q_nonneg hm
    · exact signedQty_grid hfg side
    · exact fun h0 => absurd h0 (signedQty_ne_zero hf side)
    · rw [hflat h, q_of_grid hmg, add_zero]
      exact le_rfl
  | added h hs =>
    have hne : q (p.size + signedQty side f) ≠ 0 := by
      rw [q_of_grid hsum]
      exact agreeing_ne_zero h hf hs
    refine ⟨⟨hlg, ?_, ?_, ?_, ?_⟩, ?_⟩ <;> simp only [refreshLiq_margin, refreshLiq_size]
    · exact grid_q _
    · exact q_nonneg (add_nonneg hp0 hm)
    · exact grid_q _
    · exact fun h0 => absurd h0 hne
    · rw [q_of_grid (hpg.add hmg), ← add_assoc]
      exact le_rfl
  | closed h hs h0 =>
    have hfs := fill_eq_size h hf hs hsg hfg h0
    have hcp := closedPortion_of_le (p := p) hf hfs.le hmg
    have hfr := marginFreed_of_ge h hfs.ge hpg
    have hgap := settled_gap hlg h hf hp0 hpg hm hmg (S := X + p.margin + fm) (by linarith) price
    have hlast := release_gap (settled_grid b p price f fm) (a := q (p.margin - p.marginFreed f))
      (S := X + p.margin + fm - p.marginFreed f - p.closedPortion f fm)
      (by rw [hfr, sub_self, q_zero]) (grid_q _) (by rw [hfr, hcp, sub_self, q_zero]; linarith)
    refine ⟨⟨grid_q _, grid_zero, le_rfl, grid_zero, fun _ => rfl⟩, ?_⟩
    refine le_trans (le_of_eq ?_) (hlast.trans hgap)
    rw [hcp, hfr, sub_self, q_zero]
    exact congrArg _ (by simp only [Option.getD_some]; ring)
  | flipped h hs h0 hgt =>
    obtain ⟨hcp0, hcp⟩ := closedPortion_bounds p hf hm hmg
    have hfr := marginFreed_of_ge h hgt.le hpg
    have hgap := settled_gap hlg h hf hp0 hpg hm hmg (S := X + p.margin + fm) (by linarith) price
    refine ⟨⟨settled_grid _ _ _ _ _, ?_, ?_, ?_, ?_⟩, ?_⟩ <;>
      simp only [refreshLiq_margin, refreshLiq_size]
    · exact grid_q _
    · exact q_nonneg (sub_nonneg.mpr hcp)
    · exact grid_q _
    · exact fun hz => absurd hz (ne_zero_of_not_small h0)
    · refine le_trans (le_of_eq ?_) hgap
      rw [hfr, q_of_grid (hmg.sub (closedPortion_grid p f fm))]
      exact congrArg _ (by simp only [Option.getD_some]; ring)
  | reduced h hs h0 hle =>
    obtain ⟨hfr0, hfr⟩ := marginFreed_bounds h hf hp0 hpg
    have hcp := closedPortion_of_le (p := p) hf (not_lt.mp hle) hmg
    have hgap := settled_gap hlg h hf hp0 hpg hm hmg (S := X + p.margin + fm) (by linarith) price
    refine ⟨⟨settled_grid _ _ _ _ _, ?_, ?_, ?_, ?_⟩, ?_⟩ <;>
      simp only [refreshLiq_margin, refreshLiq_size]
    · exact grid_q _
    · exact q_nonneg (sub_nonneg.mpr hfr)
    · exact grid_q _
    · exact fun hz => absurd hz (ne_zero_of_not_small h0)
    · refine le_trans (le_of_eq ?_) hgap
      rw [hcp, q_of_grid (hpg.sub (marginFreed_grid p f))]
      exact congrArg _ (by simp only [Option.getD_some]; ring)

/-- `m` has been added to the locked balance and to the margin of the position, and what
the position does not keep of it is no longer locked. -/
structure Released (b : Balance) (p : Position) (m : ℚ) (b' : Balance) (p' : Position) : Prop where
  margin_le : p'.margin ≤ p.margin + m
  locked_le : b'.locked ≤ max 0 (b.locked - (p.margin + m - p'.margin))

theorem Released.refl (b : Balance) (p : Position) : Released b p 0 b p := by
  refine ⟨by linarith, ?_⟩
  rw [add_zero, sub_self, sub_zero]
  exact le_max_right _ _

theorem Released.trans {b b' b'' : Balance} {p p' p'' : Position} {m m' : ℚ}
    (h : Released b p m b' p') (h' : Released b' p' m' b'' p'') :
    Released b p (m + m') b'' p'' := by
  have hm := h.margin_le
  have hm' := h'.margin_le
  have hrest : 0 ≤ p'.margin + m' - p''.margin := by linarith
  refine ⟨by linarith, h'.locked_le.trans ?_⟩
  calc max 0 (b'.locked - (p'.margin + m' - p''.margin))
      ≤ max 0 (max 0 (b.locked - (p.margin + m - p'.margin)) - (p'.margin + m' - p''.margin)) :=
        max_le_max le_rfl (sub_le_sub_right h.locked_le _)
    _ = max 0 (b.locked - (p.margin + m - p'.margin) - (p'.margin + m' - p''.margin)) :=
        clamp_clamp hrest
    _ = max 0 (b.locked - (p.margin + (m + m') - p''.margin)) := by
        congr 1
        ring

/-- A fill releases what the position does not keep. -/
theorem fill_released {mmr : ℚ} {b : Balance} {p : Position} {side : Side} {price f fm lev : ℚ}
    {r : Option Balance × Position} (hr : FillCase mmr b p side price f fm lev r)
    (hok : AccountOK b p) (hf : 0 < f) (hfg : Grid f) (hm : 0 ≤ fm) (hmg : Grid fm) :
    Released b p fm (r.1.getD b) r.2 := by
  obtain ⟨hlg, hpg, hp0, hsg, hflat⟩ := hok
  cases hr with
  | opened h =>
    refine ⟨?_, ?_⟩ <;> simp only [refreshLiq_margin, q_of_grid hmg, hflat h]
    · linarith
    · rw [zero_add, sub_self, sub_zero]
      exact le_max_right _ _
  | added h hs =>
    refine ⟨?_, ?_⟩ <;> simp only [refreshLiq_margin, q_of_grid (hpg.add hmg)]
    · exact le_rfl
    · rw [sub_self, sub_zero]
      exact le_max_right _ _
  | closed h hs h0 =>
    have hfs := fill_eq_size h hf hs hsg hfg h0
    have hsettled := settled_locked hlg h hf hp0 hpg hm hmg price
    rw [closedPortion_of_le hf hfs.le hmg, marginFreed_of_ge h hfs.ge hpg] at hsettled
    refine ⟨by dsimp only; linarith, ?_⟩
    rw [Option.getD_some, release_locked_eq (settled_grid _ _ _ _ _)
      (by rw [marginFreed_of_ge h hfs.ge hpg, sub_self, q_zero]) (grid_q _), hsettled,
      marginFreed_of_ge h hfs.ge hpg, sub_self, q_zero, sub_zero, max_eq_right (le_max_left _ _)]
    exact le_of_eq (congrArg _ (by ring))
  | flipped h hs h0 hgt =>
    obtain ⟨hcp0, hcp⟩ := closedPortion_bounds p hf hm hmg
    refine ⟨?_, ?_⟩ <;>
      simp only [refreshLiq_margin, q_of_grid (hmg.sub (closedPortion_grid p f fm))]
    · linarith
    · rw [Option.getD_some, settled_locked hlg h hf hp0 hpg hm hmg, marginFreed_of_ge h hgt.le hpg]
      exact le_of_eq (congrArg _ (by ring))
  | reduced h hs h0 hle =>
    obtain ⟨hfr0, hfr⟩ := marginFreed_bounds h hf hp0 hpg
    refine ⟨?_, ?_⟩ <;>
      simp only [refreshLiq_margin, q_of_grid (hpg.sub (marginFreed_grid p f))]
    · linarith
    · rw [Option.getD_some, settled_locked hlg h hf hp0 hpg hm hmg,
        closedPortion_of_le hf (not_lt.mp hle) hmg]
      exact le_of_eq (congrArg _ (by ring))

/-- The gap of every user across one leg of a fill. -/
theorem applyFill_gap {s : EngineState} (h : AccountsOK s) (u : String) (side : Side) {f fm : ℚ}
    (hf : 0 < f) (hfg : Grid f) (hm : 0 ≤ fm) (hmg : Grid fm) (price lev : ℚ) :
    AccountsOK (applyFill s u side price f fm lev) ∧ ∀ v, ∀ X : ℚ, 0 ≤ X →
      |((applyFill s u side price f fm lev).bal v).locked -
          (X + ((applyFill s u side price f fm lev).pos v).margin)| ≤
        |(s.bal v).locked - (X + (s.pos v).margin + if v = u then fm else 0)| := by
  have hcase := fillLeg_case s.market.maintenanceMarginRate (s.bal u) (s.pos u) side price f fm lev
  rw [applyFill_eq]
  constructor
  · intro v
    rw [bal_withAccount, pos_withAccount]
    split_ifs with hv
    · exact (fill_gap hcase (h u) hf hfg hm hmg le_rfl).1
    · exact h v
  · intro v X hX
    rw [bal_withAccount, pos_withAccount]
    split_ifs with hv
    · rw [hv]
      exact (fill_gap hcase (h u) hf hfg hm hmg hX).2
    · rw [add_zero]

end Perps
