import Perps.Domain.Ledger
import Perps.Proofs.CashLedger

/-! Free and locked add up to the total, and nothing is locked below zero. -/

namespace Perps

open Lib

namespace Engine

/-- A balance that is split exactly, with the position's margin on the grid, as a
liquidation releases it. -/
structure SplitOK (b : Balance) (p : Position) : Prop where
  free_grid : Grid b.free
  locked_grid : Grid b.locked
  total_eq : b.total = b.free + b.locked
  locked_nonneg : 0 ≤ b.locked
  margin_grid : Grid p.margin

variable {b : Balance} {p p' : Position} {a : ℚ}

theorem SplitOK.withMargin (h : SplitOK b p) (hp : Grid p'.margin) : SplitOK b p' :=
  ⟨h.free_grid, h.locked_grid, h.total_eq, h.locked_nonneg, hp⟩

theorem SplitOK.lock (h : SplitOK b p) (ha : 0 < a) (hg : Grid a) : SplitOK (b.lock a) p := by
  have hfree : (b.lock a).free = b.free - a := q_of_grid (h.free_grid.sub hg)
  have hlocked : (b.lock a).locked = b.locked + a := q_of_grid (h.locked_grid.add hg)
  refine ⟨grid_q _, grid_q _, ?_, ?_, h.margin_grid⟩
  · rw [hfree, hlocked, sub_add_add_cancel]
    exact h.total_eq
  · rw [hlocked]
    exact add_nonneg h.locked_nonneg ha.le

theorem SplitOK.release (h : SplitOK b p) (hg : Grid a) : SplitOK (b.release a) p := by
  have hmax : Grid (max 0 a) := by
    rcases max_choice 0 a with hm | hm <;> rw [hm]
    · exact grid_zero
    · exact hg
  have hmoved : Grid (b.moved a) := h.locked_grid.min hmax
  have hfree : (b.release a).free = b.free + b.moved a := q_of_grid (h.free_grid.add hmoved)
  have hlocked : (b.release a).locked = b.locked - b.moved a := q_of_grid (h.locked_grid.sub hmoved)
  refine ⟨grid_q _, grid_q _, ?_, ?_, h.margin_grid⟩
  · rw [hfree, hlocked, add_add_sub_cancel]
    exact h.total_eq
  · rw [hlocked]
    exact sub_nonneg.mpr (min_le_left _ _)

/-- Any amount is rounded in the same way in the total and in the free part. -/
theorem SplitOK.add (h : SplitOK b p) (a : ℚ) : SplitOK (b.add a) p := by
  have htotal : Grid b.total := h.total_eq ▸ h.free_grid.add h.locked_grid
  have hfree : (b.add a).free = b.free + q a := q_grid_add h.free_grid a
  have hsum : (b.add a).total = b.total + q a := q_grid_add htotal a
  refine ⟨grid_q _, h.locked_grid, ?_, h.locked_nonneg, h.margin_grid⟩
  rw [hfree, hsum, h.total_eq, add_right_comm]
  rfl

theorem SplitOK.settled (h : SplitOK b p) (price f fm : ℚ) : SplitOK (settled b p price f fm) p :=
  ((h.release (marginFreed_grid p f)).add (p.pnl price f)).release (closedPortion_grid p f fm)

theorem splitRules : AccountRules (fun a => 0 < a ∧ Grid a) fun _ => SplitOK where
  lock ha h := h.lock ha.1 ha.2
  release hg h := h.release hg
  fill hr _ h := by
    cases hr with
    | opened | added =>
      refine h.withMargin ?_
      rw [refreshLiq_margin]
      exact grid_q _
    | closed => exact ((h.settled _ _ _).release (grid_q _)).withMargin grid_zero
    | flipped | reduced =>
      refine (h.settled _ _ _).withMargin ?_
      rw [refreshLiq_margin]
      exact grid_q _
  mark h := h.withMargin h.margin_grid
  liquidate h := ((h.release h.margin_grid).add _).withMargin grid_zero

/-- A valid event whose margin, if it places an order, is a multiple of `10 ^ (-8)`. -/
def MarginOnGrid (e : EngineInputEvent) : Prop :=
  engineInputEventSchema e ∧ ∀ o, e.payload = .orderPlace o → Grid o.margin

instance : DecidablePred MarginOnGrid := fun _ => inferInstanceAs (Decidable (_ ∧ _))

/-- One event. -/
theorem process_split {s : EngineState} (h : AllAccounts (fun _ => SplitOK) s) (hkeys : KeysOK s)
    (hbook : BookOK s) {e : EngineInputEvent} (he : MarginOnGrid e) (id : StreamId) :
    AllAccounts (fun _ => SplitOK) (process s e id).1 := by
  refine process_accounts (splitRules.fillRules _) (fun h => h.add _) h hkeys hbook he.1
    (fun o hacc => ⟨⟨?_, he.2 o hacc.payload⟩, fun y _ => fill_margins_onGrid o y⟩) id
  exact (hacc.valid he.1).2.2.2.2.2

theorem run_split {s : EngineState} (h : AllAccounts (fun _ => SplitOK) s) (hkeys : KeysOK s)
    (hbook : BookOK s) {evs : List (EngineInputEvent × StreamId)} (hevs : RunOf MarginOnGrid evs) :
    AllAccounts (fun _ => SplitOK) (run s evs).1 := by
  induction evs generalizing s with
  | nil => exact h
  | cons x xs ih =>
    have hx := hevs x List.mem_cons_self
    exact ih (process_split h hkeys hbook hx x.2) (keysOK_step hkeys x.1 x.2)
      (bookOK_process hbook hx.1 x.2) fun y hy => hevs y (List.mem_cons_of_mem _ hy)

/-- After every run from the start whose margins are on the grid, every balance
is split exactly, with nothing locked below zero and every part on the grid. -/
theorem balance_split (market : MarketConfig) {evs : List (EngineInputEvent × StreamId)}
    (hevs : RunOf MarginOnGrid evs) (u : String) :
    let b := (run (createState market) evs).1.bal u
    b.total = b.free + b.locked ∧ 0 ≤ b.locked ∧ Grid b.total ∧ Grid b.free ∧ Grid b.locked := by
  have hinit : AllAccounts (fun _ => SplitOK) (createState market) := fun _ =>
    ⟨grid_zero, grid_zero, (zero_add 0).symm, le_rfl, grid_zero⟩
  have h := run_split hinit (keysOK_createState market) (bookOK_createState market) hevs u
  exact ⟨h.total_eq, h.locked_nonneg, h.total_eq ▸ h.free_grid.add h.locked_grid, h.free_grid,
    h.locked_grid⟩

open Fixture in
/-- Deposits, quantities and a leverage off the grid, a flip and a liquidation. -/
theorem balance_split_liquidated :
    let evs := numbered [user "m" (1000000 / 3), user "t" 1000000,
      place "m" "a1" .Ask .LIMIT 100 (22 / 7) (10 / 3) 1000, place "t" "b1" .Bid .LIMIT 100 (1 / 3) 1 100,
      place "t" "b2" .Bid .LIMIT 100 7 3 250, place "t" "c1" .Ask .MARKET 0 6 3 200,
      evt none (.indexPriceUpdated ⟨"BTCUSDT", 500, 1, 0⟩)]
    let b := (run (createState MARKET) evs).1.bal "t"
    b.total = b.free + b.locked ∧ 0 ≤ b.locked ∧ Grid b.total ∧ Grid b.free ∧ Grid b.locked :=
  balance_split MARKET (by decide +kernel) "t"

end Engine

end Perps
