import Perps.Domain.Identifiers
import Perps.Proofs.OpenInterest
import Perps.Proofs.TakerReport

/-! The position records. A flat record is empty, and an open one holds the liquidation
price that follows from its other fields, after every fill, tick and liquidation. -/

namespace Perps

open Lib

namespace Engine

/-- The leverages that the market allows. -/
def LeverageOK (market : MarketConfig) (lev : ℚ) : Prop := 0 < lev ∧ lev ≤ market.maxLeverage

/-- The size is on the grid, and the fields that follow from others do so. -/
structure CacheOK (market : MarketConfig) (p : Position) : Prop where
  size_grid : Grid p.size
  flat : p.size = 0 → p.entryPrice = 0 ∧ p.liqPrice = 0
  leverage : p.size ≠ 0 → LeverageOK market p.leverage
  liqPrice : p.size ≠ 0 → p.liqPrice =
    computeLiquidationPrice p.entryPrice p.leverage p.side market.maintenanceMarginRate

theorem cacheOK_flat {market : MarketConfig} {p : Position} (hsize : p.size = 0)
    (hentry : p.entryPrice = 0) (hliq : p.liqPrice = 0) : CacheOK market p := by
  refine ⟨?_, fun _ => ⟨hentry, hliq⟩, fun h => absurd hsize h, fun h => absurd hsize h⟩
  rw [hsize]
  exact grid_zero

/-- A record of `applyFill`, once its liquidation price is refreshed. -/
theorem cacheOK_refreshLiq {market : MarketConfig} {p : Position} (hgrid : Grid p.size)
    (hopen : p.size ≠ 0) (hlev : LeverageOK market p.leverage) :
    CacheOK market (refreshLiq market.maintenanceMarginRate p) := by
  unfold refreshLiq
  rw [if_neg hopen]
  exact ⟨hgrid, fun h => absurd h hopen, fun _ => hlev, fun _ => rfl⟩

/-- A fill as it reaches a position. -/
def Leveraged (market : MarketConfig) (f lev : ℚ) : Prop := 0 < f ∧ Grid f ∧ LeverageOK market lev

theorem cacheOK_fill {market : MarketConfig} {b : Balance} {p : Position} {side : Side}
    {price f fm lev : ℚ} {r : Option Balance × Position}
    (hr : FillCase market.maintenanceMarginRate b p side price f fm lev r) (h : CacheOK market p)
    (hf : Leveraged market f lev) : CacheOK market r.2 := by
  obtain ⟨hpos, hgrid, hlev⟩ := hf
  cases hr with
  | opened hflat =>
    exact cacheOK_refreshLiq (signedQty_grid hgrid side) (signedQty_ne_zero hpos side) hlev
  | added hopen hs =>
    refine cacheOK_refreshLiq (grid_q _) ?_ hlev
    dsimp only
    rw [q_of_grid (h.size_grid.add (signedQty_grid hgrid side))]
    exact agreeing_ne_zero hopen hpos hs
  | closed => exact cacheOK_flat rfl rfl rfl
  | flipped hopen hs h0 => exact cacheOK_refreshLiq (grid_q _) (ne_zero_of_not_small h0) hlev
  | reduced hopen hs h0 =>
    -- the leverage stays that of the fills before
    exact cacheOK_refreshLiq (grid_q _) (ne_zero_of_not_small h0) (h.leverage hopen)

theorem cacheOK_rules (market : MarketConfig) :
    FillRules (fun _ => True) (fun f _ lev => Leveraged market f lev) market.maintenanceMarginRate
      fun _ _ p => CacheOK market p where
  lock _ h := h
  release _ h := h
  fill hr hf h := cacheOK_fill hr h hf
  mark h := ⟨h.size_grid, h.flat, h.leverage, h.liqPrice⟩
  liquidate _ := cacheOK_flat rfl rfl rfl

/-- The checks of a placement bound its leverage. -/
theorem leverage_of_placeRejection {s : EngineState} {o : PlaceOrder}
    (h : placeRejection s o = none) : LeverageOK s.market o.leverage := by
  unfold placeRejection at h
  dsimp only at h
  split_ifs at h with _ hlev
  rw [not_or, not_le, not_lt] at hlev
  exact hlev

/-- The invariant: the book and the records of an engine whose quantities are on the grid. -/
structure RecordsOK (market : MarketConfig) (s : EngineState) : Prop where
  market_eq : s.market = market
  book : BookOK s
  keys : KeysOK s
  resting : ∀ x ∈ s.resting, Grid x.remaining ∧ LeverageOK market x.leverage
  records : AllAccounts (fun _ b p => AccountOK b p ∧ CacheOK market p) s

theorem recordsOK_createState (market : MarketConfig) : RecordsOK market (createState market) where
  market_eq := rfl
  book := bookOK_createState market
  keys := keysOK_createState market
  resting := by simp [createState, EngineState.resting]
  records _ := ⟨⟨grid_zero, grid_zero, le_rfl, grid_zero, fun _ => rfl⟩, cacheOK_flat rfl rfl rfl⟩

section Step

variable {market : MarketConfig} {s : EngineState} (h : RecordsOK market s)

include h

theorem RecordsOK.accepted_leverage {e : EngineInputEvent} {o : PlaceOrder} (hacc : Accepted s e o) :
    LeverageOK market o.leverage := by
  have hlev := leverage_of_placeRejection hacc.checks
  rwa [h.market_eq] at hlev

/-- The fills of an accepted order are on the grid, with the leverages of their orders. -/
theorem RecordsOK.legs {e : EngineInputEvent} (he : QuantityOnGrid e) {o : PlaceOrder}
    (hacc : Accepted s e o) : ∀ y ∈ fillsOf s o,
      LegsOK (fun f fm lev => Filled f fm ∧ Leveraged market f lev) o y := by
  have hvalid := hacc.valid he.1
  have hgrid : ∀ x ∈ crossing o (levelsFor s (maker_side o.side)), Grid x.remaining := fun x hx =>
    (h.resting x (BookOK.resting_of_side s (crossing_subset hx))).1
  have hfilled := filled_legs h.book hvalid (hits_grid hgrid (he.2 o hacc.payload))
  intro y hy
  obtain ⟨hmaker, htaker⟩ := hfilled y hy
  have hrests : y.1 ∈ s.resting :=
    BookOK.resting_of_side s (crossing_subset (hits_mem (List.mem_map_of_mem hy)))
  exact ⟨⟨hmaker, hmaker.1, hmaker.2.1, (h.resting _ hrests).2⟩,
    ⟨htaker, htaker.1, htaker.2.1, h.accepted_leverage hacc⟩⟩

theorem RecordsOK.process {e : EngineInputEvent} (he : QuantityOnGrid e) (id : StreamId) :
    RecordsOK market (process s e id).1 where
  market_eq := (process_market s e id).trans h.market_eq
  book := bookOK_process h.book he.1 id
  keys := keysOK_step h.keys e id
  resting x hx := by
    rcases process_rested h.book he.1 id hx with ⟨y, hy, hxy⟩ | ⟨o, hacc, hown⟩
    · rw [hxy.leverage]
      exact ⟨hxy.grid (h.resting y hy).1, (h.resting y hy).2⟩
    · unfold ownRest at hown
      split_ifs at hown
      · rw [List.mem_singleton.mp hown]
        exact ⟨matched_grid s _ o (he.2 o hacc.payload), h.accepted_leverage hacc⟩
      · cases hown
  records := by
    have hrules : FillRules (fun _ => True)
        (fun f fm lev => Filled f fm ∧ Leveraged market f lev) s.market.maintenanceMarginRate
        fun _ b p => AccountOK b p ∧ CacheOK market p := by
      rw [h.market_eq]
      exact (accountOK_rules _).and (cacheOK_rules market)
    refine process_accounts hrules (fun hi => ?_) h.records h.keys h.book he.1
      (fun o hacc => ⟨trivial, h.legs he hacc⟩) id
    exact ⟨⟨hi.1.locked_grid, hi.1.margin_grid, hi.1.margin_nonneg, hi.1.size_grid,
      hi.1.flat_margin⟩, hi.2⟩

theorem RecordsOK.restored {t : EngineState} (hsame : SameUpToOrder s t) : RecordsOK market t := by
  have hresting : t.resting = s.resting := by
    rw [hsame.rest]
    rfl
  refine ⟨?_, sameUpToOrder_book hsame h.book, keysOK_of_pos h.keys hsame.pos, ?_,
    AllAccounts.congr h.records hsame.bal hsame.pos⟩
  · rw [hsame.rest]
    exact h.market_eq
  · rw [hresting]
    exact h.resting

end Step

theorem reachable_recordsOK {market : MarketConfig} {s : EngineState}
    (h : Reachable QuantityOnGrid market s) : RecordsOK market s := by
  induction h with
  | init => exact recordsOK_createState market
  | event _ e he id ih => exact ih.process he id
  | restored _ ht ih => exact ih.restored (restored_same ht)

/-- A position record, spelt out. -/
structure WellFormedRecord (market : MarketConfig) (p : Position) : Prop where
  size_grid : Grid p.size
  flat : p.size = 0 → p.entryPrice = 0 ∧ p.margin = 0 ∧ p.liqPrice = 0
  margin_nonneg : p.size ≠ 0 → 0 ≤ p.margin
  leverage_pos : p.size ≠ 0 → 0 < p.leverage
  leverage_le : p.size ≠ 0 → p.leverage ≤ market.maxLeverage
  liqPrice : p.size ≠ 0 → p.liqPrice = computeLiquidationPrice p.entryPrice p.leverage
    (if p.size > 0 then .LONG else .SHORT) market.maintenanceMarginRate

theorem RecordsOK.wellFormed {market : MarketConfig} {s : EngineState} (h : RecordsOK market s)
    {u : String} {p : Position} (hp : s.positions.get? u = some p) : WellFormedRecord market p := by
  have hpos : s.pos u = p := by
    unfold EngineState.pos
    rw [hp]
    rfl
  obtain ⟨haccount, hcache⟩ := h.records u
  rw [hpos] at haccount hcache
  exact ⟨hcache.size_grid,
    fun h0 => ⟨(hcache.flat h0).1, haccount.flat_margin h0, (hcache.flat h0).2⟩,
    fun _ => haccount.margin_nonneg, fun hopen => (hcache.leverage hopen).1,
    fun hopen => (hcache.leverage hopen).2, hcache.liqPrice⟩

/-- Every position record of every reachable state is well formed, if the quantities of the
orders are multiples of `10 ^ (-8)`. -/
theorem position_records_well_formed {market : MarketConfig} {s : EngineState}
    (h : Reachable QuantityOnGrid market s) {u : String} {p : Position}
    (hp : s.positions.get? u = some p) : WellFormedRecord market p :=
  (reachable_recordsOK h).wellFormed hp

open Fixture in
/-- A fill at one leverage, more of it at another, and a flip. -/
theorem position_records_well_formed_flip :
    let s := (run (createState MARKET) (numbered [user "m" 1000000, user "t" 1000000,
      place "m" "a1" .Ask .LIMIT 100 2 3 200, place "m" "a2" .Ask .LIMIT 101 2 7 200,
      place "t" "b1" .Bid .LIMIT 101 3 10 303, place "m" "a3" .Bid .LIMIT 99 5 2 500,
      place "t" "b2" .Ask .LIMIT 99 5 4 500])).1
    ∃ p, s.positions.get? "t" = some p ∧ p.size = -2 ∧ WellFormedRecord MARKET p := by
  intro s
  have hstored : ∃ p ∈ s.positions.get? "t", p.size = -2 := by decide +kernel
  obtain ⟨p, hp, hsize⟩ := hstored
  exact ⟨p, hp, hsize, position_records_well_formed
    (reachable_run .init (by decide +kernel)) hp⟩

end Engine

end Perps
