import Perps.Domain.Ledger
import Perps.Proofs.AccountRules

/-! The amounts of an account in every reachable state. The parts of a balance and
the margin of a position are on the grid, and neither the locked part nor the
margin is below zero. -/

namespace Perps

open Lib

namespace Engine

structure Amounts (b : Balance) (p : Position) : Prop where
  total_grid : Grid b.total
  free_grid : Grid b.free
  locked_grid : Grid b.locked
  locked_nonneg : 0 ≤ b.locked
  margin_grid : Grid p.margin
  margin_nonneg : 0 ≤ p.margin

variable {b : Balance} {p p' : Position}

theorem Amounts.lock (h : Amounts b p) {a : ℚ} (ha : 0 < a) : Amounts (b.lock a) p :=
  ⟨h.total_grid, grid_q _, grid_q _, q_nonneg (add_nonneg h.locked_nonneg ha.le), h.margin_grid,
    h.margin_nonneg⟩

theorem Amounts.release (h : Amounts b p) (a : ℚ) : Amounts (b.release a) p :=
  ⟨h.total_grid, grid_q _, grid_q _, q_nonneg (sub_nonneg.mpr (min_le_left _ _)), h.margin_grid,
    h.margin_nonneg⟩

theorem Amounts.add (h : Amounts b p) (a : ℚ) : Amounts (b.add a) p :=
  ⟨grid_q _, grid_q _, h.locked_grid, h.locked_nonneg, h.margin_grid, h.margin_nonneg⟩

theorem Amounts.settled (h : Amounts b p) (price f fm : ℚ) : Amounts (settled b p price f fm) p :=
  ((h.release _).add _).release _

theorem Amounts.withMargin (h : Amounts b p) (hg : Grid p'.margin) (h0 : 0 ≤ p'.margin) :
    Amounts b p' :=
  ⟨h.total_grid, h.free_grid, h.locked_grid, h.locked_nonneg, hg, h0⟩

/-- The liquidation price of a record is not among the amounts. -/
theorem Amounts.refreshed (h : Amounts b p) (hg : Grid p'.margin) (h0 : 0 ≤ p'.margin) (mmr : ℚ) :
    Amounts b (refreshLiq mmr p') :=
  h.withMargin (by rwa [refreshLiq_margin]) (by rwa [refreshLiq_margin])

theorem amounts_fill {mmr : ℚ} {side : Side} {price f fm lev : ℚ} {r : Option Balance × Position}
    (hr : FillCase mmr b p side price f fm lev r) (hf : Funded f fm) (h : Amounts b p) :
    Amounts (r.1.getD b) r.2 := by
  obtain ⟨hpos, hm, hg⟩ := hf
  cases hr with
  | opened => exact h.refreshed (grid_q _) (q_nonneg hm) mmr
  | added => exact h.refreshed (grid_q _) (q_nonneg (add_nonneg h.margin_nonneg hm)) mmr
  | closed => exact ((h.settled price f fm).release _).withMargin grid_zero le_rfl
  | flipped =>
    have hportion := (closedPortion_bounds p hpos hm hg).2
    exact (h.settled price f fm).refreshed (grid_q _) (q_nonneg (sub_nonneg.mpr hportion)) mmr
  | reduced hopen =>
    have hfreed := (marginFreed_bounds hopen hpos h.margin_nonneg h.margin_grid).2
    exact (h.settled price f fm).refreshed (grid_q _) (q_nonneg (sub_nonneg.mpr hfreed)) mmr

theorem amounts_rules (mmr : ℚ) :
    FillRules (fun a => 0 < a) (fun f fm _ => Funded f fm) mmr fun _ => Amounts where
  lock ha h := h.lock ha
  release _ h := h.release _
  fill hr hf h := amounts_fill hr hf h
  mark h := h.withMargin h.margin_grid h.margin_nonneg
  liquidate h := ((h.release _).add _).withMargin grid_zero le_rfl

/-- The amounts of every account of every reachable state. -/
theorem reachable_amounts {market : MarketConfig} {s : EngineState}
    (h : Reachable engineInputEventSchema market s) : AllAccounts (fun _ => Amounts) s := by
  induction h with
  | init => exact fun _ => ⟨grid_zero, grid_zero, grid_zero, le_rfl, grid_zero, le_rfl⟩
  | event hs e he id ih =>
    have hbook := reachable_bookOK hs
    refine process_accounts (amounts_rules _) (fun h => h.add _) ih (reachable_keysOK hs) hbook he
      (fun o hacc => ?_) id
    have ho := hacc.valid he
    exact ⟨ho.2.2.2.2.2, funded_legs hbook ho⟩
  | restored _ ht ih => exact ih.congr (restored_same ht).bal (restored_same ht).pos

end Engine

end Perps
