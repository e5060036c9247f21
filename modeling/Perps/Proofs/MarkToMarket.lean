import Perps.Domain.Ledger
import Perps.Domain.Reachable

/-! The equity of a position: what it has realized, and what its size is worth at a
reference price. A fill changes it by what the filled quantity is worth, up to the
rounding of the entry price and of the realized profit. -/

namespace Perps

open Lib

/-- The equity at the reference price `P`. -/
def Position.equity (p : Position) (P : ℚ) : ℚ := p.realizedPnl + p.size * (P - p.entryPrice)

/-- The closed quantity, with the sign of the position. -/
def Position.closedSize (p : Position) (f : ℚ) : ℚ :=
  p.closedQty f * (if p.size > 0 then 1 else -1)

@[simp] theorem refreshLiq_equity (mmr : ℚ) (p : Position) (P : ℚ) :
    (refreshLiq mmr p).equity P = p.equity P := by
  simp [Position.equity]

theorem pnl_grid (p : Position) (price f : ℚ) : Grid (p.pnl price f) := grid_q _

theorem pnl_error (p : Position) (price f : ℚ) :
    |p.pnl price f - (price - p.entryPrice) * p.closedSize f| ≤ halfStep := by
  unfold Position.pnl Position.closedSize
  rw [mul_assoc]
  exact abs_q_sub_le _

section Opposing

variable {p : Position} {side : Side} {f : ℚ}

/-- A fill that exceeds the position closes all of it. -/
theorem closedSize_of_ge (hle : |p.size| ≤ f) : p.closedSize f = p.size := by
  unfold Position.closedSize Position.closedQty
  rw [min_eq_left hle]
  split_ifs with hpos
  · rw [mul_one, abs_of_pos hpos]
  · rw [mul_neg_one, abs_of_nonpos (not_lt.mp hpos), neg_neg]

/-- A fill that the position exceeds is all used to close. -/
theorem closedSize_of_le (h : p.size ≠ 0) (hf : 0 < f)
    (hs : sign p.size ≠ sign (signedQty side f)) (hle : f ≤ |p.size|) :
    p.closedSize f = -signedQty side f := by
  unfold Position.closedSize Position.closedQty
  rw [min_eq_right hle]
  rcases opposing_signs h hf hs with ⟨hpos, hq⟩ | ⟨hneg, hq⟩
  · rw [if_pos hpos, hq]
    ring
  · rw [if_neg hneg.not_gt, hq]
    ring

/-- The average entry price is what both parts were entered at. -/
theorem average_worth (h : p.size ≠ 0) (hf : 0 < f) (hs : sign p.size = sign (signedQty side f))
    (price : ℚ) :
    (p.size + signedQty side f) * ((|p.size| * p.entryPrice + f * price) / (|p.size| + f)) =
      p.size * p.entryPrice + signedQty side f * price := by
  have hsum : |p.size| + f ≠ 0 := (add_pos_of_nonneg_of_pos (abs_nonneg _) hf).ne'
  rw [mul_div_assoc', div_eq_iff hsum]
  rcases agreeing_signs h hf hs with ⟨hpos, hq⟩ | ⟨hneg, hq⟩
  · rw [hq, abs_of_pos hpos]
    ring
  · rw [hq, abs_of_neg hneg]
    ring

end Opposing

section Equity

variable {p p' : Position} {price f P signed : ℚ}

/-- Where a profit is realized, only its rounding is lost. -/
theorem equity_realized (hpnl : Grid p.realizedPnl)
    (hrealized : p'.realizedPnl = q (p.realizedPnl + p.pnl price f))
    (hopen : p'.size * (P - p'.entryPrice) + (price - p.entryPrice) * p.closedSize f =
      p.size * (P - p.entryPrice) + signed * (P - price)) :
    |p'.equity P - p.equity P - signed * (P - price)| ≤ halfStep * (1 + |p'.size|) := by
  have hround : p'.equity P - p.equity P - signed * (P - price) =
      p.pnl price f - (price - p.entryPrice) * p.closedSize f := by
    unfold Position.equity
    rw [hrealized, q_of_grid (hpnl.add (pnl_grid p price f))]
    linarith
  have hrest : 0 ≤ halfStep * |p'.size| := mul_nonneg halfStep_nonneg (abs_nonneg _)
  have herror := pnl_error p price f
  rw [hround, mul_add, mul_one]
  linarith

end Equity

/-- A fill is worth its quantity at every reference price, but for one rounding of the
realized profit and one of the entry price. -/
theorem fill_equity {mmr : ℚ} {b : Balance} {p : Position} {side : Side} {price f fm lev : ℚ}
    {r : Option Balance × Position} (hr : FillCase mmr b p side price f fm lev r)
    (hsize : Grid p.size) (hpnl : Grid p.realizedPnl) (hf : 0 < f) (hfg : Grid f) (P : ℚ) :
    |r.2.equity P - p.equity P - signedQty side f * (P - price)| ≤
      halfStep * (1 + |r.2.size|) := by
  have hnew := fill_size hr hsize hfg
  have hnonneg : 0 ≤ halfStep * (1 + |r.2.size|) :=
    mul_nonneg halfStep_nonneg (add_nonneg zero_le_one (abs_nonneg _))
  cases hr with
  | opened h =>
    refine le_of_eq_of_le ?_ hnonneg
    rw [refreshLiq_equity, abs_eq_zero]
    unfold Position.equity
    rw [h]
    ring
  | added h hs =>
    rw [refreshLiq_size] at hnew hnonneg ⊢
    rw [refreshLiq_equity]
    dsimp only at hnew hnonneg ⊢
    -- only the average entry price is rounded
    set average := (|p.size| * p.entryPrice + f * price) / (|p.size| + f) with haverage
    have hworth := average_worth h hf hs price
    rw [← haverage] at hworth
    have hround : Position.equity { p with
          entryPrice := q average
          size := q (p.size + signedQty side f)
          margin := q (p.margin + fm)
          leverage := lev } P - p.equity P - signedQty side f * (P - price) =
        -(q (p.size + signedQty side f) * (q average - average)) := by
      unfold Position.equity
      dsimp only
      rw [hnew]
      linarith
    rw [hround, abs_neg, abs_mul, mul_comm halfStep, one_add_mul]
    have hpart := mul_le_mul_of_nonneg_left (abs_q_sub_le average)
      (abs_nonneg (q (p.size + signedQty side f)))
    linarith [halfStep_nonneg]
  | closed h hs h0 =>
    have hfs := fill_eq_size h hf hs hsize hfg h0
    refine equity_realized hpnl rfl ?_
    dsimp only at hnew ⊢
    rw [closedSize_of_ge hfs.ge]
    have hsigned : signedQty side f = -p.size := by linarith
    rw [hsigned]
    ring
  | flipped h hs h0 hgt =>
    rw [refreshLiq_size] at hnew ⊢
    rw [refreshLiq_equity]
    refine equity_realized hpnl rfl ?_
    dsimp only at hnew ⊢
    rw [closedSize_of_ge hgt.le, hnew]
    ring
  | reduced h hs h0 hle =>
    rw [refreshLiq_size] at hnew ⊢
    rw [refreshLiq_equity]
    refine equity_realized hpnl rfl ?_
    dsimp only at hnew ⊢
    rw [closedSize_of_le h hf hs (not_lt.mp hle), hnew]
    ring

/-- What a fill adds to is on the grid. -/
structure RecordOnGrid (p : Position) : Prop where
  size_grid : Grid p.size
  pnl_grid : Grid p.realizedPnl

theorem fill_recordOnGrid {mmr : ℚ} {b : Balance} {p : Position} {side : Side}
    {price f fm lev : ℚ} {r : Option Balance × Position}
    (hr : FillCase mmr b p side price f fm lev r) (hp : RecordOnGrid p) (hfg : Grid f) :
    RecordOnGrid r.2 := by
  refine ⟨?_, ?_⟩
  · rw [fill_size hr hp.size_grid hfg]
    exact hp.size_grid.add (signedQty_grid hfg side)
  · cases hr with
    | opened | added =>
      rw [refreshLiq_realizedPnl]
      exact hp.pnl_grid
    | closed => exact grid_q _
    | flipped | reduced =>
      rw [refreshLiq_realizedPnl]
      exact grid_q _

theorem signedQty_maker_side (side : Side) (f : ℚ) :
    signedQty (maker_side side) f = -signedQty side f := by
  cases side
  · rfl
  · exact (neg_neg f).symm

section Legs

variable {s : EngineState} {u : String} {f : ℚ}

theorem applyFill_recordOnGrid (side : Side) (price fm lev : ℚ) (hfg : Grid f) {v : String}
    (hu : RecordOnGrid (s.pos u)) (hv : RecordOnGrid (s.pos v)) :
    RecordOnGrid ((applyFill s u side price f fm lev).pos v) := by
  rw [applyFill_eq, pos_withAccount]
  split_ifs
  · exact fill_recordOnGrid (fillLeg_case _ _ _ _ _ _ _ _) hu hfg
  · exact hv

theorem applyFill_equity (side : Side) (price fm lev : ℚ) (hu : RecordOnGrid (s.pos u))
    (hf : 0 < f) (hfg : Grid f) (P : ℚ) :
    ((applyFill s u side price f fm lev).pos u).size = (s.pos u).size + signedQty side f ∧
      |((applyFill s u side price f fm lev).pos u).equity P - (s.pos u).equity P -
          signedQty side f * (P - price)| ≤
        halfStep * (1 + |((applyFill s u side price f fm lev).pos u).size|) := by
  have hcase := fillLeg_case s.market.maintenanceMarginRate (s.bal u) (s.pos u) side price f fm lev
  rw [applyFill_eq, pos_withAccount, if_pos rfl]
  exact ⟨fill_size hcase hu.size_grid hfg,
    fill_equity hcase hu.size_grid hu.pnl_grid hf hfg P⟩

/-- A fill is marked to market exactly, up to the rounding. With the opposing leg of the
same trade, of the same user or of another one, the changes in equity cancel out. -/
theorem applyFill_markToMarket (side : Side) (price fm lev : ℚ) (hu : RecordOnGrid (s.pos u))
    (hf : 0 < f) (hfg : Grid f) (P : ℚ) :
    let s₁ := applyFill s u side price f fm lev
    (s₁.pos u).size = (s.pos u).size + signedQty side f ∧
      |(s₁.pos u).equity P - (s.pos u).equity P - signedQty side f * (P - price)| ≤
        halfStep * (1 + |(s₁.pos u).size|) ∧
      ∀ (v : String) (fm' lev' : ℚ), RecordOnGrid (s.pos v) →
        let s₂ := applyFill s₁ v (maker_side side) price f fm' lev'
        |((s₁.pos u).equity P - (s.pos u).equity P) + ((s₂.pos v).equity P - (s₁.pos v).equity P)| ≤
          halfStep * (1 + |(s₁.pos u).size|) + halfStep * (1 + |(s₂.pos v).size|) := by
  intro s₁
  obtain ⟨hsize, hequity⟩ := applyFill_equity side price fm lev hu hf hfg P
  refine ⟨hsize, hequity, fun v fm' lev' hv => ?_⟩
  have hv₁ : RecordOnGrid (s₁.pos v) := applyFill_recordOnGrid side price fm lev hfg hu hv
  obtain ⟨-, hopposing⟩ := applyFill_equity (maker_side side) price fm' lev' hv₁ hf hfg P
  rw [signedQty_maker_side] at hopposing
  refine le_trans (le_of_eq (congrArg _ ?_)) ((abs_add_le _ _).trans (add_le_add hequity hopposing))
  ring

end Legs

open Fixture in
/-- A short of two is flipped by a bid of three, sold by a user without a position. -/
theorem applyFill_markToMarket_flip :
    let s := applyFill (createState MARKET) "u1" .Ask 100 2 20 10
    let s₁ := applyFill s "u1" .Bid 90 3 30 10
    let s₂ := applyFill s₁ "u2" (maker_side .Bid) 90 3 27 10
    (s₁.pos "u1").size = (s.pos "u1").size + signedQty .Bid 3 ∧
      |(s₁.pos "u1").equity 95 - (s.pos "u1").equity 95 - signedQty .Bid 3 * (95 - 90)| ≤
        halfStep * (1 + |(s₁.pos "u1").size|) ∧
      |((s₁.pos "u1").equity 95 - (s.pos "u1").equity 95) +
          ((s₂.pos "u2").equity 95 - (s₁.pos "u2").equity 95)| ≤
        halfStep * (1 + |(s₁.pos "u1").size|) + halfStep * (1 + |(s₂.pos "u2").size|) := by
  obtain ⟨hsize, hequity, hlegs⟩ := applyFill_markToMarket
    (s := applyFill (createState MARKET) "u1" .Ask 100 2 20 10) (u := "u1") (f := 3) .Bid 90 30 10
    ⟨by decide +kernel, by decide +kernel⟩ (by norm_num) (Grid.of_int 3) 95
  exact ⟨hsize, hequity, hlegs "u2" 27 10 ⟨by decide +kernel, by decide +kernel⟩⟩

end Perps
