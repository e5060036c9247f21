import Perps.Domain.Ledger
import Perps.Domain.Reachable

/-! The loss at the liquidation price against the collateral of a position. A
fill that adds to a position overwrites its leverage, from which the price is
computed, and leaves the collateral of what was there before; the loss stays
within the collateral as long as what was there is covered at the new leverage
as well. -/

namespace Perps

open Lib

/-- The arguments of `applyFill` after the user. -/
structure Fill where
  side : Side
  price : ℚ
  fillQty : ℚ
  fillMargin : ℚ
  leverage : ℚ
  deriving DecidableEq, Repr

def applyFills (state : EngineState) (userId : String) (fills : List Fill) : EngineState :=
  fills.foldl (fun state x =>
    applyFill state userId x.side x.price x.fillQty x.fillMargin x.leverage) state

/-- The fill is margined at its own leverage. -/
structure Fill.Margined (x : Fill) : Prop where
  price_pos : 0 < x.price
  qty_pos : 0 < x.fillQty
  qty_grid : Grid x.fillQty
  leverage_pos : 0 < x.leverage
  margined : x.price * x.fillQty / x.leverage ≤ x.fillMargin

instance : DecidablePred Fill.Margined := fun x =>
  decidable_of_iff (0 < x.price ∧ 0 < x.fillQty ∧ Grid x.fillQty ∧ 0 < x.leverage ∧
    x.price * x.fillQty / x.leverage ≤ x.fillMargin)
    ⟨fun h => ⟨h.1, h.2.1, h.2.2.1, h.2.2.2.1, h.2.2.2.2⟩,
      fun h => ⟨h.price_pos, h.qty_pos, h.qty_grid, h.leverage_pos, h.margined⟩⟩

/-- The loss at the liquidation price. -/
def liqLoss (p : Position) : ℚ := (p.entryPrice - p.liqPrice) * p.size

/-- The share of the entry price that is lost at the liquidation price, before
rounding. -/
def lossRate (mmr size leverage : ℚ) : ℚ :=
  max 0 (if 0 < size then min 1 (1 / leverage - mmr) else 1 / leverage - mmr)

/-- The fill adds to the open position `p`. -/
def AddsTo (p : Position) (x : Fill) : Prop :=
  p.size ≠ 0 ∧ sign p.size = sign (signedQty x.side x.fillQty)

/-- Where the fill adds to a position, its leverage is no less than the
position's, or both margins together cover the loss on both parts at it; and the
loss is not so steep that the rounding of the entry price outgrows the dust. -/
def CoveredAdd (mmr : ℚ) (p : Position) (x : Fill) : Prop :=
  AddsTo p x →
    (p.leverage ≤ x.leverage ∨
      (|p.size| * p.entryPrice + x.fillQty * x.price) * lossRate mmr p.size x.leverage ≤
        p.margin + x.fillMargin) ∧
    lossRate mmr p.size x.leverage ≤ 20

/-- The condition along a run of fills. -/
def CoveredAdds (s : EngineState) (u : String) : List Fill → Prop
  | [] => True
  | x :: xs =>
    CoveredAdd s.market.maintenanceMarginRate (s.pos u) x ∧
      CoveredAdds (applyFill s u x.side x.price x.fillQty x.fillMargin x.leverage) u xs

instance (p : Position) (x : Fill) : Decidable (AddsTo p x) :=
  inferInstanceAs (Decidable (_ ∧ _))

instance (mmr : ℚ) (p : Position) (x : Fill) : Decidable (CoveredAdd mmr p x) :=
  inferInstanceAs (Decidable (AddsTo p x → _))

instance decidableCoveredAdds (u : String) :
    ∀ (fills : List Fill) (s : EngineState), Decidable (CoveredAdds s u fills)
  | [], _ => isTrue trivial
  | _ :: xs, _ => @instDecidableAnd _ _ _ (decidableCoveredAdds u xs _)

/-- What the collateral lacks to cover the loss, before rounding. -/
def shortfall (mmr : ℚ) (p : Position) : ℚ :=
  |p.size| * p.entryPrice * lossRate mmr p.size p.leverage - p.margin

/-- The allowance for rounding of one fill. -/
def fillDust (size : ℚ) : ℚ := 1e-7 * (1 + |size|)

theorem lossRate_nonneg (mmr size leverage : ℚ) : 0 ≤ lossRate mmr size leverage := le_max_left _ _

theorem lossRate_le {mmr leverage : ℚ} (hmmr : 0 ≤ mmr) (size : ℚ) (hl : 0 < leverage) :
    lossRate mmr size leverage ≤ 1 / leverage := by
  have h : 1 / leverage - mmr ≤ 1 / leverage := by linarith
  refine max_le (one_div_pos.mpr hl).le ?_
  split_ifs
  · exact (min_le_right _ _).trans h
  · exact h

theorem lossRate_anti (mmr size : ℚ) {a b : ℚ} (ha : 0 < a) (hab : a ≤ b) :
    lossRate mmr size b ≤ lossRate mmr size a := by
  have h : 1 / b - mmr ≤ 1 / a - mmr := sub_le_sub_right (one_div_le_one_div_of_le ha hab) _
  refine max_le_max le_rfl ?_
  split_ifs
  · exact min_le_min le_rfl h
  · exact h

/-- The rate sees the side of a position, not its size. -/
theorem lossRate_congr {mmr a b leverage : ℚ} (h : 0 < a ↔ 0 < b) :
    lossRate mmr a leverage = lossRate mmr b leverage := by
  unfold lossRate
  simp only [h]

theorem halfStep_eq : halfStep = 0.5e-8 := by norm_num [halfStep, SCALE]

theorem fillDust_mono {a b : ℚ} (h : |a| ≤ |b|) : fillDust a ≤ fillDust b := by
  unfold fillDust
  linarith

theorem fillDust_pos (size : ℚ) : 1e-7 ≤ fillDust size := by
  unfold fillDust
  have := abs_nonneg size
  linarith

/-- The loss at the computed price, up to its rounding. -/
theorem liqLoss_le {mmr : ℚ} {p : Position} (hE : 0 ≤ p.entryPrice) (hL : 0 < p.leverage)
    (hne : p.size ≠ 0)
    (hliq : p.liqPrice = computeLiquidationPrice p.entryPrice p.leverage p.side mmr) :
    liqLoss p ≤ |p.size| * p.entryPrice * lossRate mmr p.size p.leverage + halfStep * |p.size| := by
  have hcap := mul_le_mul_of_nonneg_left (le_max_right 0
    (if 0 < p.size then min 1 (1 / p.leverage - mmr) else 1 / p.leverage - mmr)) hE
  unfold computeLiquidationPrice at hliq
  rw [if_neg (not_le.mpr hL)] at hliq
  unfold liqLoss lossRate
  rcases lt_or_gt_of_ne hne with hneg | hpos
  · rw [Position.side, if_neg (not_lt.mpr hneg.le)] at hliq
    rw [if_neg (not_lt.mpr hneg.le)] at hcap ⊢
    rw [abs_of_neg hneg]
    have hq := q_le_add (p.entryPrice * (1 + 1 / p.leverage - mmr))
    have hgap : p.liqPrice - p.entryPrice ≤
        p.entryPrice * max 0 (1 / p.leverage - mmr) + halfStep := by
      rw [hliq]
      dsimp only
      linarith
    have := mul_le_mul_of_nonneg_right hgap (neg_nonneg.mpr hneg.le)
    linarith
  · rw [Position.side, if_pos hpos] at hliq
    rw [if_pos hpos] at hcap ⊢
    rw [abs_of_pos hpos]
    have hq := sub_le_q (max 0 (p.entryPrice * (1 - 1 / p.leverage + mmr)))
    have h0 := le_max_left 0 (p.entryPrice * (1 - 1 / p.leverage + mmr))
    have h1 := le_max_right 0 (p.entryPrice * (1 - 1 / p.leverage + mmr))
    have hgap : p.entryPrice - p.liqPrice ≤
        p.entryPrice * max 0 (min 1 (1 / p.leverage - mmr)) + halfStep := by
      rw [hliq]
      dsimp only
      rcases min_choice 1 (1 / p.leverage - mmr) with hm | hm <;> rw [hm] at hcap ⊢ <;> linarith
    have := mul_le_mul_of_nonneg_right hgap hpos.le
    linarith

/-- The invariant of the fills of one user, after `n` of them. -/
structure Backed (mmr : ℚ) (n : ℕ) (p : Position) : Prop where
  size_grid : Grid p.size
  margin_grid : p.size ≠ 0 → Grid p.margin
  entry_nonneg : p.size ≠ 0 → 0 ≤ p.entryPrice
  leverage_pos : p.size ≠ 0 → 0 < p.leverage
  liq : p.size ≠ 0 → p.liqPrice = computeLiquidationPrice p.entryPrice p.leverage p.side mmr
  /-- The fill that opens the position needs no allowance yet. -/
  short : p.size ≠ 0 → 1 ≤ n ∧ shortfall mmr p + fillDust p.size ≤ n * fillDust p.size + 2 * halfStep

theorem Backed.loss {mmr : ℚ} {n : ℕ} {p : Position} (h : Backed mmr n p) (hne : p.size ≠ 0) : liqLoss p ≤ p.margin + n * fillDust p.size := by
  have hloss := liqLoss_le (h.entry_nonneg hne) (h.leverage_pos hne) hne (h.liq hne)
  have hshort := (h.short hne).2
  unfold shortfall at hshort
  have hlast : halfStep * |p.size| + 2 * halfStep ≤ fillDust p.size := by
    unfold fillDust
    rw [halfStep_eq]
    have := abs_nonneg p.size
    linarith
  linarith

theorem backed_flat (mmr : ℚ) (n : ℕ) {p : Position} (h : p.size = 0) : Backed mmr n p :=
  ⟨h ▸ grid_zero, fun hne => absurd h hne, fun hne => absurd h hne, fun hne => absurd h hne,
    fun hne => absurd h hne, fun hne => absurd h hne⟩

/-- A record whose liquidation price has just been refreshed. -/
theorem backed_refreshLiq {mmr : ℚ} {n : ℕ} {p : Position} (hs : Grid p.size) (hm : Grid p.margin)
    (hE : 0 ≤ p.entryPrice) (hL : 0 < p.leverage) (hn : 1 ≤ n)
    (hshort : shortfall mmr p + fillDust p.size ≤ n * fillDust p.size + 2 * halfStep) :
    Backed mmr n (refreshLiq mmr p) := by
  unfold refreshLiq
  split_ifs with h0
  · exact backed_flat mmr n h0
  · exact ⟨hs, fun _ => hm, fun _ => hE, fun _ => hL, fun _ => rfl, fun _ => ⟨hn, hshort⟩⟩

section Fills

variable {mmr : ℚ} {n : ℕ} {p : Position} {x : Fill}

/-- A fill that stands alone is covered by its own margin. -/
theorem shortfall_alone (hmmr : 0 ≤ mmr) (hx : x.Margined) {share : ℚ} (hshare : 0 ≤ share)
    {p' : Position} (hsize : |p'.size| = share * x.fillQty) (hE : p'.entryPrice = x.price)
    (hL : p'.leverage = x.leverage) (hm : share * x.fillMargin - 2 * halfStep ≤ p'.margin) :
    shortfall mmr p' ≤ 2 * halfStep := by
  unfold shortfall
  rw [hsize, hE, hL]
  have hval : 0 ≤ share * x.fillQty * x.price :=
    mul_nonneg (mul_nonneg hshare hx.qty_pos.le) hx.price_pos.le
  have hrate := mul_le_mul_of_nonneg_left (lossRate_le hmmr p'.size hx.leverage_pos) hval
  have hown := mul_le_mul_of_nonneg_left hx.margined hshare
  have heq : share * x.fillQty * x.price * (1 / x.leverage) =
      share * (x.price * x.fillQty / x.leverage) := by ring
  linarith

theorem fillDust_le_mul (hn : 1 ≤ n) (size : ℚ) : fillDust size ≤ n * fillDust size := by
  have h1 : (1 : ℚ) ≤ n := by exact_mod_cast hn
  have := fillDust_pos size
  nlinarith

theorem backed_opened (hmmr : 0 ≤ mmr) (hx : x.Margined) :
    Backed mmr (n + 1) (refreshLiq mmr { p with
      size := signedQty x.side x.fillQty
      entryPrice := x.price
      margin := q x.fillMargin
      leverage := x.leverage }) := by
  have hsize : |signedQty x.side x.fillQty| = 1 * x.fillQty := by
    cases x.side
    · simp [signedQty, abs_of_pos hx.qty_pos]
    · simp [signedQty, abs_of_pos hx.qty_pos]
  refine backed_refreshLiq (signedQty_grid hx.qty_grid _) (grid_q _) hx.price_pos.le
    hx.leverage_pos (by omega) ?_
  have hq := sub_le_q x.fillMargin
  have hh := halfStep_nonneg
  have halone : shortfall mmr { p with
      size := signedQty x.side x.fillQty
      entryPrice := x.price
      margin := q x.fillMargin
      leverage := x.leverage } ≤ 2 * halfStep :=
    shortfall_alone hmmr hx zero_le_one hsize rfl rfl (by dsimp only; linarith)
  have hdust := fillDust_le_mul (Nat.le_add_left 1 n) (signedQty x.side x.fillQty)
  dsimp only
  linarith

/-- The sizes before and after a fill that adds. -/
theorem added_size (hgrid : Grid p.size) (hx : x.Margined) (hadds : AddsTo p x) :
    |q (p.size + signedQty x.side x.fillQty)| = |p.size| + x.fillQty ∧
      (0 < q (p.size + signedQty x.side x.fillQty) ↔ 0 < p.size) := by
  have hf := hx.qty_pos
  rw [q_of_grid (hgrid.add (signedQty_grid hx.qty_grid _))]
  rcases agreeing_signs hadds.1 hf hadds.2 with ⟨hpos, hs⟩ | ⟨hneg, hs⟩
  · rw [hs, abs_of_pos hpos, abs_of_pos (add_pos hpos hf)]
    exact ⟨rfl, iff_of_true (add_pos hpos hf) hpos⟩
  · have hsum : p.size + -x.fillQty < 0 := by linarith
    rw [hs, abs_of_neg hneg, abs_of_neg hsum]
    exact ⟨by ring, iff_of_false hsum.not_gt hneg.not_gt⟩

/-- At the new leverage the loss on both parts is covered by the margins and what
was lacking before. -/
theorem added_cover (hmmr : 0 ≤ mmr) (hb : Backed mmr n p) (hx : x.Margined) (hadds : AddsTo p x)
    (hcov : CoveredAdd mmr p x) :
    (|p.size| * p.entryPrice + x.fillQty * x.price) * lossRate mmr p.size x.leverage ≤
      p.margin + x.fillMargin + max 0 (shortfall mmr p) := by
  have hE := hb.entry_nonneg hadds.1
  have hold : 0 ≤ |p.size| * p.entryPrice := mul_nonneg (abs_nonneg _) hE
  have hown : 0 ≤ x.fillQty * x.price := mul_nonneg hx.qty_pos.le hx.price_pos.le
  rcases (hcov hadds).1 with hle | hboth
  · have h1 := mul_le_mul_of_nonneg_left (lossRate_anti mmr p.size (hb.leverage_pos hadds.1) hle) hold
    have h2 := mul_le_mul_of_nonneg_left (lossRate_le hmmr p.size hx.leverage_pos) hown
    have h3 : x.fillQty * x.price * (1 / x.leverage) ≤ x.fillMargin := by
      have := hx.margined
      rw [mul_comm x.price] at this
      rwa [mul_one_div]
    have h4 := le_max_right 0 (shortfall mmr p)
    unfold shortfall at h4 ⊢
    linarith
  · have h3 := le_max_left 0 (shortfall mmr p)
    linarith

theorem backed_added (hmmr : 0 ≤ mmr) (hb : Backed mmr n p) (hx : x.Margined) (hadds : AddsTo p x)
    (hcov : CoveredAdd mmr p x) :
    Backed mmr (n + 1) (refreshLiq mmr { p with
      entryPrice := q ((|p.size| * p.entryPrice + x.fillQty * x.price) / (|p.size| + x.fillQty))
      size := q (p.size + signedQty x.side x.fillQty)
      margin := q (p.margin + x.fillMargin)
      leverage := x.leverage }) := by
  obtain ⟨hsize, hside⟩ := added_size hb.size_grid hx hadds
  obtain ⟨hn, hshort⟩ := hb.short hadds.1
  have hs : 0 < |p.size| + x.fillQty := add_pos_of_nonneg_of_pos (abs_nonneg _) hx.qty_pos
  have hE := hb.entry_nonneg hadds.1
  have htotal : 0 ≤ |p.size| * p.entryPrice + x.fillQty * x.price :=
    add_nonneg (mul_nonneg (abs_nonneg _) hE) (mul_nonneg hx.qty_pos.le hx.price_pos.le)
  refine backed_refreshLiq (grid_q _) (grid_q _) (q_nonneg (div_nonneg htotal hs.le))
    hx.leverage_pos (by omega) ?_
  have hrate := lossRate_nonneg mmr p.size x.leverage
  have hentry := q_le_add ((|p.size| * p.entryPrice + x.fillQty * x.price) / (|p.size| + x.fillQty))
  have hmargin := sub_le_q (p.margin + x.fillMargin)
  have hcover := added_cover hmmr hb hx hadds hcov
  have hstep : halfStep ≤ 1e-7 := by
    rw [halfStep_eq]
    norm_num
  -- what rounding the entry price adds to the loss
  have hround : halfStep * lossRate mmr p.size x.leverage ≤ 1e-7 := by
    have := (hcov hadds).2
    rw [halfStep_eq]
    linarith
  -- the notional of the new record, with the entry price rounded
  have hnotional : (|p.size| + x.fillQty) *
      q ((|p.size| * p.entryPrice + x.fillQty * x.price) / (|p.size| + x.fillQty)) ≤
        |p.size| * p.entryPrice + x.fillQty * x.price + (|p.size| + x.fillQty) * halfStep := by
    have := mul_le_mul_of_nonneg_left hentry hs.le
    rwa [mul_add, mul_div_cancel₀ _ hs.ne'] at this
  have hloss := mul_le_mul_of_nonneg_right hnotional hrate
  have hdustRate := mul_le_mul_of_nonneg_left hround hs.le
  have hnew : shortfall mmr { p with
      entryPrice := q ((|p.size| * p.entryPrice + x.fillQty * x.price) / (|p.size| + x.fillQty))
      size := q (p.size + signedQty x.side x.fillQty)
      margin := q (p.margin + x.fillMargin)
      leverage := x.leverage } ≤
        max 0 (shortfall mmr p) + (|p.size| + x.fillQty) * 1e-7 + halfStep := by
    unfold shortfall at hcover ⊢
    dsimp only
    rw [hsize, lossRate_congr hside]
    linarith
  have hdust : fillDust (q (p.size + signedQty x.side x.fillQty)) =
      1e-7 + (|p.size| + x.fillQty) * 1e-7 := by
    rw [fillDust, hsize]
    ring
  have hmono : fillDust p.size ≤ fillDust (q (p.size + signedQty x.side x.fillQty)) :=
    fillDust_mono (by rw [hsize]; linarith [hx.qty_pos])
  have hn' : (0 : ℚ) ≤ n - 1 := by
    have : (1 : ℚ) ≤ n := by exact_mod_cast hn
    linarith
  have hgrow := mul_le_mul_of_nonneg_left hmono hn'
  have hdust0 := fillDust_pos (q (p.size + signedQty x.side x.fillQty))
  have hold : max 0 (shortfall mmr p) ≤
      (n - 1) * fillDust (q (p.size + signedQty x.side x.fillQty)) + 2 * halfStep := by
    refine max_le ?_ (by linarith)
    have := mul_nonneg hn' (le_trans (by norm_num) hdust0)
    linarith [halfStep_nonneg]
  dsimp only
  push_cast
  linarith

/-- The sizes before and after an opposing fill that leaves something. -/
theorem opposed_size (hgrid : Grid p.size) (hx : x.Margined) (hne : p.size ≠ 0)
    (hs : sign p.size ≠ sign (signedQty x.side x.fillQty)) :
    |q (p.size + signedQty x.side x.fillQty)| = |(|p.size| - x.fillQty)| ∧
      (x.fillQty < |p.size| → (0 < q (p.size + signedQty x.side x.fillQty) ↔ 0 < p.size)) := by
  rw [q_of_grid (hgrid.add (signedQty_grid hx.qty_grid _))]
  rcases opposing_signs hne hx.qty_pos hs with ⟨hpos, hs⟩ | ⟨hneg, hs⟩
  · rw [hs, abs_of_pos hpos, ← sub_eq_add_neg]
    exact ⟨rfl, fun hlt => iff_of_true (sub_pos.mpr hlt) hpos⟩
  · rw [hs, abs_of_neg hneg, abs_sub_comm, sub_neg_eq_add, add_comm]
    exact ⟨rfl, fun hlt => iff_of_false (by linarith) hneg.not_gt⟩

theorem backed_flipped (hmmr : 0 ≤ mmr) (hb : Backed mmr n p) (hx : x.Margined) (hne : p.size ≠ 0)
    (hs : sign p.size ≠ sign (signedQty x.side x.fillQty)) (hgt : x.fillQty > |p.size|)
    (pnl : ℚ) :
    Backed mmr (n + 1) (refreshLiq mmr { p with
      realizedPnl := q (p.realizedPnl + pnl)
      size := q (p.size + signedQty x.side x.fillQty)
      entryPrice := x.price
      margin := q (x.fillMargin - p.closedPortion x.fillQty x.fillMargin)
      leverage := x.leverage }) := by
  have hf := hx.qty_pos
  refine backed_refreshLiq (grid_q _) (grid_q _) hx.price_pos.le hx.leverage_pos (by omega) ?_
  -- the share of the fill that opens the new position
  have hshare : 0 ≤ (x.fillQty - |p.size|) / x.fillQty := div_nonneg (by linarith) hf.le
  have hsize : |q (p.size + signedQty x.side x.fillQty)| =
      (x.fillQty - |p.size|) / x.fillQty * x.fillQty := by
    rw [(opposed_size hb.size_grid hx hne hs).1, abs_sub_comm, abs_of_pos (by linarith),
      div_mul_cancel₀ _ hf.ne']
  have hportion := q_le_add (|p.size| / x.fillQty * x.fillMargin)
  have hmargin := sub_le_q (x.fillMargin - p.closedPortion x.fillQty x.fillMargin)
  have hclosed : p.closedPortion x.fillQty x.fillMargin = q (|p.size| / x.fillQty * x.fillMargin) := by
    rw [Position.closedPortion, Position.closedQty, min_eq_left hgt.le]
  have hrest : (x.fillQty - |p.size|) / x.fillQty * x.fillMargin =
      x.fillMargin - |p.size| / x.fillQty * x.fillMargin := by
    field_simp
  have halone : shortfall mmr { p with
      realizedPnl := q (p.realizedPnl + pnl)
      size := q (p.size + signedQty x.side x.fillQty)
      entryPrice := x.price
      margin := q (x.fillMargin - p.closedPortion x.fillQty x.fillMargin)
      leverage := x.leverage } ≤ 2 * halfStep := by
    refine shortfall_alone hmmr hx hshare hsize rfl rfl ?_
    rw [hclosed] at hmargin ⊢
    linarith
  have hdust := fillDust_le_mul (Nat.le_add_left 1 n) (q (p.size + signedQty x.side x.fillQty))
  dsimp only
  linarith

theorem backed_reduced (hb : Backed mmr n p) (hx : x.Margined) (hne : p.size ≠ 0)
    (hs : sign p.size ≠ sign (signedQty x.side x.fillQty))
    (h0 : ¬ |q (p.size + signedQty x.side x.fillQty)| < 1e-9) (hle : ¬ x.fillQty > |p.size|)
    (pnl : ℚ) :
    Backed mmr (n + 1) (refreshLiq mmr { p with
      realizedPnl := q (p.realizedPnl + pnl)
      size := q (p.size + signedQty x.side x.fillQty)
      margin := q (p.margin - p.marginFreed x.fillQty) }) := by
  obtain ⟨hn, hshort⟩ := hb.short hne
  have hold : 0 < |p.size| := abs_pos.mpr hne
  obtain ⟨hsize, hside⟩ := opposed_size hb.size_grid hx hne hs
  have hleft := abs_pos.mpr (ne_zero_of_not_small h0)
  rw [abs_of_nonneg (by linarith : 0 ≤ |p.size| - x.fillQty)] at hsize
  refine backed_refreshLiq (grid_q _) (grid_q _) (hb.entry_nonneg hne) (hb.leverage_pos hne)
    (by omega) ?_
  -- the share of the position that stays
  have hshare0 : 0 ≤ (|p.size| - x.fillQty) / |p.size| := div_nonneg (by linarith) hold.le
  have hshare1 : (|p.size| - x.fillQty) / |p.size| ≤ 1 :=
    (div_le_one hold).mpr (by linarith [hx.qty_pos])
  have hstays : (|p.size| - x.fillQty) / |p.size| * |p.size| = |p.size| - x.fillQty :=
    div_mul_cancel₀ _ hold.ne'
  have hmargin : (|p.size| - x.fillQty) / |p.size| * p.margin - halfStep ≤
      q (p.margin - p.marginFreed x.fillQty) := by
    rw [q_of_grid ((hb.margin_grid hne).sub (marginFreed_grid p _)), Position.marginFreed,
      Position.closedQty, min_eq_right (not_lt.mp hle)]
    have hfreed := q_le_add (x.fillQty / |p.size| * p.margin)
    have hrest : (|p.size| - x.fillQty) / |p.size| * p.margin =
        p.margin - x.fillQty / |p.size| * p.margin := by
      field_simp
    linarith
  generalize (|p.size| - x.fillQty) / |p.size| = share at hshare0 hshare1 hstays hmargin
  have hnew : shortfall mmr { p with
      realizedPnl := q (p.realizedPnl + pnl)
      size := q (p.size + signedQty x.side x.fillQty)
      margin := q (p.margin - p.marginFreed x.fillQty) } ≤ share * shortfall mmr p + halfStep := by
    unfold shortfall
    dsimp only
    rw [hsize, lossRate_congr (hside (by linarith)), ← hstays]
    linarith
  have hn' : (0 : ℚ) ≤ n - 1 := by
    have : (1 : ℚ) ≤ n := by exact_mod_cast hn
    linarith
  -- the allowance shrinks with the position
  have hdust : share * fillDust p.size ≤ fillDust (q (p.size + signedQty x.side x.fillQty)) := by
    rw [fillDust, fillDust, hsize, ← hstays]
    linarith
  have hscaled := mul_le_mul_of_nonneg_left
    (show shortfall mmr p ≤ (n - 1) * fillDust p.size + 2 * halfStep by linarith) hshare0
  have hgrow := mul_le_mul_of_nonneg_left hdust hn'
  have hhalf := mul_le_mul_of_nonneg_right hshare1 (mul_nonneg two_pos.le halfStep_nonneg)
  have hdust0 := fillDust_pos (q (p.size + signedQty x.side x.fillQty))
  have hstep : halfStep ≤ 1e-7 := by
    rw [halfStep_eq]
    norm_num
  dsimp only
  push_cast
  linarith

/-- One fill. -/
theorem backed_fill (hmmr : 0 ≤ mmr) (hb : Backed mmr n p) (hx : x.Margined)
    (hcov : CoveredAdd mmr p x) {b : Balance}
    {r : Option Balance × Position}
    (hr : FillCase mmr b p x.side x.price x.fillQty x.fillMargin x.leverage r) :
    Backed mmr (n + 1) r.2 := by
  cases hr with
  | opened h => exact backed_opened hmmr hx
  | added h hs => exact backed_added hmmr hb hx ⟨h, hs⟩ hcov
  | closed h hs h0 => exact backed_flat mmr _ rfl
  | flipped h hs h0 hgt => exact backed_flipped hmmr hb hx h hs hgt _
  | reduced h hs h0 hle => exact backed_reduced hb hx h hs h0 hle _

end Fills

/-- A run of fills keeps the position backed. -/
theorem applyFills_backed {s : EngineState} {u : String}
    (hmmr : 0 ≤ s.market.maintenanceMarginRate) {n : ℕ}
    (hb : Backed s.market.maintenanceMarginRate n (s.pos u)) {fills : List Fill}
    (hm : ∀ x ∈ fills, x.Margined) (hcov : CoveredAdds s u fills) :
    Backed s.market.maintenanceMarginRate (n + fills.length) ((applyFills s u fills).pos u) := by
  induction fills generalizing s n with
  | nil => exact hb
  | cons x xs ih =>
    have hmarket : (applyFill s u x.side x.price x.fillQty x.fillMargin x.leverage).market =
        s.market := by
      rw [applyFill_eq]
      rfl
    have hstep : Backed s.market.maintenanceMarginRate (n + 1)
        ((applyFill s u x.side x.price x.fillQty x.fillMargin x.leverage).pos u) := by
      rw [applyFill_eq, pos_withAccount, if_pos rfl]
      exact backed_fill hmmr hb (hm x List.mem_cons_self) hcov.1 (fillLeg_case _ _ _ _ _ _ _ _)
    rw [← hmarket] at hmmr hstep ⊢
    rw [List.length_cons, ← Nat.add_assoc, Nat.add_right_comm]
    exact ih hmmr hstep (fun y hy => hm y (List.mem_cons_of_mem _ hy)) hcov.2

/-- The loss at the liquidation price stays within the collateral, up to the
allowance of `10 ^ (-7) * (1 + |size|)` for each fill, in every run of fills that
add to a position only what leaves all of it covered at its new leverage. -/
theorem liquidation_within_margin {s : EngineState} {u : String}
    (hmmr : 0 ≤ s.market.maintenanceMarginRate) (hflat : (s.pos u).size = 0) {fills : List Fill}
    (hm : ∀ x ∈ fills, x.Margined) (hcov : CoveredAdds s u fills) :
    let p := (applyFills s u fills).pos u
    p.size ≠ 0 → liqLoss p ≤ p.margin + fills.length * (1e-7 * (1 + |p.size|)) := by
  intro p hne
  have h := applyFills_backed hmmr (backed_flat _ 0 hflat) hm hcov
  rw [Nat.zero_add] at h
  exact h.loss hne

open Fixture in
/-- Adding at a higher leverage, reducing, and flipping to a short. -/
theorem liquidation_within_margin_flip :
    let fills : List Fill := [⟨.Bid, 100, 10, 50, 20⟩, ⟨.Bid, 103, 1, 5, 25⟩, ⟨.Ask, 101, 4, 41, 10⟩,
      ⟨.Ask, 99, 10, 99, 10⟩]
    let p := (applyFills (createState MARKET) "u" fills).pos "u"
    p.size ≠ 0 → liqLoss p ≤ p.margin + fills.length * (1e-7 * (1 + |p.size|)) :=
  liquidation_within_margin (by decide +kernel) (by decide +kernel) (by decide +kernel)
    (by decide +kernel)

open Fixture in
/-- One unit at leverage 1 on top of ten at leverage 20: the liquidation price
falls to 0.5, where the loss is 1094.5, and the collateral is 150. -/
theorem liquidation_beyond_margin :
    let fills : List Fill := [⟨.Bid, 100, 10, 50, 20⟩, ⟨.Bid, 100, 1, 100, 1⟩]
    let p := (applyFills (createState MARKET) "u" fills).pos "u"
    (∀ x ∈ fills, x.Margined ∧ x.leverage ≤ MARKET.maxLeverage) ∧ p.size ≠ 0 ∧
      liqLoss p = 1094.5 ∧ p.margin = 150 ∧
      ¬ liqLoss p ≤ p.margin + fills.length * (1e-7 * (1 + |p.size|)) :=
  ⟨by decide +kernel, by decide +kernel, by decide +kernel, by decide +kernel, by decide +kernel⟩

end Perps
