import Perps.Domain.Ledger
import Perps.Proofs.AccountRules
import Perps.Proofs.Restore

/-! The cash ledger: what a user has in total is what was paid in, plus the
profit and loss that the position has realized. -/

namespace Perps

open Lib

namespace Engine

/-- The total and the realized profit and loss of a user to whom `paid u` has
been credited. -/
structure LedgerOK (paid : String → ℚ) (u : String) (b : Balance) (p : Position) : Prop where
  total_grid : Grid b.total
  pnl_grid : Grid p.realizedPnl
  total_eq : b.total = paid u + p.realizedPnl

section Rules

variable {paid : String → ℚ} {u : String} {b b' : Balance} {p p' : Position}

/-- What changes neither of the two fields. -/
theorem LedgerOK.congr (h : LedgerOK paid u b p) (hb : b'.total = b.total)
    (hp : p'.realizedPnl = p.realizedPnl) : LedgerOK paid u b' p' :=
  ⟨hb ▸ h.total_grid, hp ▸ h.pnl_grid, by rw [hb, hp, h.total_eq]⟩

/-- A realized profit or loss is booked in both. -/
theorem LedgerOK.book (h : LedgerOK paid u b p) {pnl : ℚ} (hpnl : Grid pnl)
    (hb : b'.total = q (b.total + pnl)) (hp : p'.realizedPnl = q (p.realizedPnl + pnl)) :
    LedgerOK paid u b' p' := by
  rw [q_of_grid (h.total_grid.add hpnl)] at hb
  rw [q_of_grid (h.pnl_grid.add hpnl)] at hp
  refine ⟨hb ▸ h.total_grid.add hpnl, hp ▸ h.pnl_grid.add hpnl, ?_⟩
  rw [hb, hp, h.total_eq, add_assoc]

theorem ledgerRules (A : ℚ → Prop) (paid : String → ℚ) : AccountRules A (LedgerOK paid) where
  lock _ h := h.congr rfl rfl
  release _ h := h.congr rfl rfl
  fill hr _ h := by
    cases hr with
    | opened | added => exact h.congr rfl (refreshLiq_realizedPnl _ _)
    | closed => exact h.book (grid_q _) rfl rfl
    | flipped | reduced => exact h.book (grid_q _) rfl (refreshLiq_realizedPnl _ _)
  mark h := h.congr rfl rfl
  liquidate h := h.book (grid_q _) rfl rfl

end Rules

/-- What the event pays in for `u`. -/
def cashIn (u : String) (e : EngineInputEvent) : ℚ :=
  match e.payload with
  | .userCreated p => if p.userId = u ∧ p.openingBalance > 0 then q p.openingBalance else 0
  | .balanceDeposited p => if p.userId = u then q p.amount else 0
  | _ => 0

/-- What the applied events of a run pay in for `u`. -/
def cashPaidIn (u : String) (s : EngineState) : List (EngineInputEvent × StreamId) → ℚ
  | [] => 0
  | x :: xs =>
    (if alreadyApplied s x.1 then 0 else cashIn u x.1) + cashPaidIn u (process s x.1 x.2).1 xs

theorem cashIn_credits {e : EngineInputEvent} {u : String} {amount : ℚ} (hc : Credits e u amount)
    (ha : 0 < amount) (v : String) : cashIn v e = if v = u then q amount else 0 := by
  unfold cashIn
  rcases hc with hp | hp
  · rw [hp]
    by_cases hv : u = v <;> simp [hv, ha, eq_comm]
  · rw [hp]
    by_cases hv : u = v <;> simp [hv, eq_comm]

theorem cashIn_of_not_credits {e : EngineInputEvent} (he : engineInputEventSchema e)
    (hno : ∀ u amount, 0 < amount → ¬ Credits e u amount) (v : String) : cashIn v e = 0 := by
  have hp := he.2
  unfold cashIn
  cases hpay : e.payload with
  | userCreated p =>
    refine if_neg fun hpos => hno p.userId p.openingBalance hpos.2 (Or.inl hpay)
  | balanceDeposited p =>
    rw [hpay] at hp
    exact absurd (Or.inr hpay) (hno p.userId p.amount hp.2)
  | _ => rfl

/-- One event. -/
theorem process_ledger {s : EngineState} {paid : String → ℚ} (h : AllAccounts (LedgerOK paid) s)
    (hkeys : KeysOK s) (hbook : BookOK s) {e : EngineInputEvent} (he : engineInputEventSchema e)
    (id : StreamId) :
    AllAccounts (LedgerOK fun u => paid u + if alreadyApplied s e then 0 else cashIn u e)
      (process s e id).1 := by
  by_cases ha : alreadyApplied s e = true
  · simp only [ha, if_true, add_zero]
    rw [process_applied ha]
    exact h
  · have hcore := process_new ha id
    simp only [ha, Bool.false_eq_true, if_false]
    refine AllAccounts.congr ?_ hcore.bal hcore.pos
    by_cases hno : ∀ u amount, 0 < amount → ¬ Credits e u amount
    · simp only [cashIn_of_not_credits he hno, add_zero]
      exact effect_accounts ((ledgerRules (fun _ => True) paid).fillRules _) h hkeys hbook
        (fun o _ _ _ => ⟨trivial, fun y _ => fill_margins_onGrid o y⟩)
        (fun u amount hpos hc => absurd hc (hno u amount hpos)) (dispatch_effect s e he)
    · push Not at hno
      obtain ⟨u, amount, hpos, hc⟩ := hno
      have hsame := dispatch_credits s hc hpos
      refine AllAccounts.congr (fun v => ?_) hsame.bal hsame.pos
      have hcash := cashIn_credits hc hpos v
      rw [credit_eq, bal_set]
      show LedgerOK _ v _ (s.pos v)
      obtain ⟨htotal, hpnl, heq⟩ := h v
      split_ifs at hcash ⊢ with hv
      · subst hv
        have hsum : ((s.bal v).add amount).total = (s.bal v).total + q amount :=
          q_grid_add htotal amount
        refine ⟨grid_q _, hpnl, ?_⟩
        rw [hsum, hcash, heq]
        ring
      · refine ⟨htotal, hpnl, ?_⟩
        rw [hcash, add_zero, heq]

theorem run_ledger {s : EngineState} {paid : String → ℚ} (h : AllAccounts (LedgerOK paid) s)
    (hkeys : KeysOK s) (hbook : BookOK s) {evs : List (EngineInputEvent × StreamId)}
    (hevs : RunOf engineInputEventSchema evs) :
    AllAccounts (LedgerOK fun u => paid u + cashPaidIn u s evs) (run s evs).1 := by
  induction evs generalizing s paid with
  | nil =>
    simp only [cashPaidIn, add_zero]
    exact h
  | cons x xs ih =>
    have hx := hevs x List.mem_cons_self
    have hrest := ih (process_ledger h hkeys hbook hx x.2) (keysOK_step hkeys x.1 x.2)
      (bookOK_process hbook hx x.2) fun y hy => hevs y (List.mem_cons_of_mem _ hy)
    simp only [cashPaidIn, ← add_assoc]
    exact hrest

/-- After every run from the start, a user's total is what the applied deposits
and opening balances paid in, each rounded, plus the realized profit and loss. -/
theorem total_is_cash_plus_pnl (market : MarketConfig)
    {evs : List (EngineInputEvent × StreamId)} (hevs : RunOf engineInputEventSchema evs)
    (u : String) :
    let s := (run (createState market) evs).1
    (s.bal u).total = cashPaidIn u (createState market) evs + (s.pos u).realizedPnl := by
  have hinit : AllAccounts (LedgerOK fun _ => 0) (createState market) := fun _ =>
    ⟨grid_zero, grid_zero, (zero_add 0).symm⟩
  have h := (run_ledger hinit (keysOK_createState market) (bookOK_createState market) hevs u).total_eq
  rwa [zero_add] at h

open Fixture in
/-- A self-trade, a flip and a liquidation, with amounts off the grid. -/
theorem total_is_cash_plus_pnl_liquidated :
    let evs := numbered [user "m" (1000000 / 3), user "t" 1000000, user "t" (1 / 7),
      place "m" "a1" .Ask .LIMIT 100 3 3 (1000 / 7), place "t" "b1" .Bid .LIMIT 100 (1 / 3) 1 100,
      place "t" "b2" .Bid .LIMIT 100 7 3 250, place "t" "c1" .Ask .MARKET 0 6 3 200,
      evt none (.indexPriceUpdated ⟨"BTCUSDT", 500, 1, 0⟩)]
    let s := (run (createState MARKET) evs).1
    (s.bal "t").total = cashPaidIn "t" (createState MARKET) evs + (s.pos "t").realizedPnl :=
  total_is_cash_plus_pnl MARKET (by decide +kernel) "t"

end Engine

end Perps
