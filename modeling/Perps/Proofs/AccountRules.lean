import Perps.Domain.Fills
import Perps.Domain.Sweep
import Perps.Proofs.BookInvariant

/-! What every event does to the accounts, from what the elementary operations do
to one account. A relation between a user and the two records that locking,
releasing, filling, marking and liquidating keep is kept by every event, apart
from the user who is credited. -/

namespace Perps

open Lib

namespace Engine

/-- The operations keep `I`, provided that what is locked satisfies `A`. -/
structure AccountRules (A : ℚ → Prop) (I : String → Balance → Position → Prop) : Prop where
  lock : ∀ {u b p a}, A a → I u b p → I u (b.lock a) p
  release : ∀ {u b p a}, Grid a → I u b p → I u (b.release a) p
  fill : ∀ {u b p mmr side price f fm lev r}, FillCase mmr b p side price f fm lev r → Grid fm →
    I u b p → I u (r.1.getD b) r.2
  mark : ∀ {u b p price}, I u b p → I u b (markPosition price p)
  liquidate : ∀ {u b p price}, I u b p → I u (liquidatedBal price b p) (liquidatedPos price p)

/-- The operations keep `I`, where the fills of quantity `f`, margin `fm` and leverage
`lev` satisfy `F f fm lev`. -/
structure FillRules (A : ℚ → Prop) (F : ℚ → ℚ → ℚ → Prop) (mmr : ℚ)
    (I : String → Balance → Position → Prop) : Prop where
  lock : ∀ {u b p a}, A a → I u b p → I u (b.lock a) p
  release : ∀ {u b p a}, Grid a → I u b p → I u (b.release a) p
  fill : ∀ {u b p side price f fm lev r}, FillCase mmr b p side price f fm lev r → F f fm lev →
    I u b p → I u (r.1.getD b) r.2
  mark : ∀ {u b p price}, I u b p → I u b (markPosition price p)
  liquidate : ∀ {u b p price}, I u b p → I u (liquidatedBal price b p) (liquidatedPos price p)

/-- The relation holds for every user. -/
def AllAccounts (I : String → Balance → Position → Prop) (s : EngineState) : Prop :=
  ∀ u, I u (s.bal u) (s.pos u)

/-- Both legs of a fill satisfy `F`. -/
def LegsOK (F : ℚ → ℚ → ℚ → Prop) (o : PlaceOrder) (y : RestingOrder × ℚ) : Prop :=
  F y.2 (makerFillMargin y.1 y.2) y.1.leverage ∧ F y.2 (takerFillMargin o y.2) o.leverage

variable {A : ℚ → Prop} {F : ℚ → ℚ → ℚ → Prop} {mmr : ℚ} {I : String → Balance → Position → Prop}
  {s t : EngineState}

/-- Rules that only ask for margins on the grid. -/
theorem AccountRules.fillRules (h : AccountRules A I) (mmr : ℚ) :
    FillRules A (fun _ fm _ => Grid fm) mmr I where
  lock := h.lock
  release := h.release
  fill := h.fill
  mark := h.mark
  liquidate := h.liquidate

/-- Two relations that are kept are kept together. -/
theorem FillRules.and {F' : ℚ → ℚ → ℚ → Prop} {I' : String → Balance → Position → Prop}
    (h : FillRules A F mmr I) (h' : FillRules A F' mmr I') :
    FillRules A (fun f fm lev => F f fm lev ∧ F' f fm lev) mmr
      fun u b p => I u b p ∧ I' u b p where
  lock ha hi := ⟨h.lock ha hi.1, h'.lock ha hi.2⟩
  release ha hi := ⟨h.release ha hi.1, h'.release ha hi.2⟩
  fill hr hf hi := ⟨h.fill hr hf.1 hi.1, h'.fill hr hf.2 hi.2⟩
  mark hi := ⟨h.mark hi.1, h'.mark hi.2⟩
  liquidate hi := ⟨h.liquidate hi.1, h'.liquidate hi.2⟩

theorem AllAccounts.congr (h : AllAccounts I s) (hbal : ∀ u, t.bal u = s.bal u)
    (hpos : ∀ u, t.pos u = s.pos u) : AllAccounts I t := fun u => by
  rw [hbal, hpos]
  exact h u

section Rules

variable (hR : FillRules A F mmr I) (h : AllAccounts I s)

include hR h

theorem lock_accounts {u : String} {a : ℚ} (ha : A a) (hl : (lock s u a).2 = true) :
    AllAccounts I (lock s u a).1 := by
  rw [lock_fst s u a hl]
  intro v
  rw [bal_set]
  split_ifs with hv
  · subst hv
    exact hR.lock ha (h v)
  · exact h v

theorem release_accounts (u : String) {a : ℚ} (ha : Grid a) :
    AllAccounts I (release s u a).1 := by
  rw [release_eq]
  intro v
  rw [bal_set]
  split_ifs with hv
  · subst hv
    exact hR.release ha (h v)
  · exact h v

theorem applyFill_accounts (hmmr : s.market.maintenanceMarginRate = mmr) (u : String) (side : Side)
    (price : ℚ) {f fm lev : ℚ} (hF : F f fm lev) :
    AllAccounts I (applyFill s u side price f fm lev) := by
  rw [applyFill_eq, hmmr]
  intro v
  rw [bal_withAccount, pos_withAccount]
  split_ifs with hv
  · subst hv
    exact hR.fill (fillLeg_case _ _ _ _ _ _ _ _) hF (h v)
  · exact h v

theorem cancelled_accounts {c : CancelOrder} {level : PriceLevel} {a : ℚ} (ha : Grid a) :
    AllAccounts I (release (withoutOrder s c level) c.userId a).1 :=
  release_accounts hR
    (h.congr (fun v => bal_setLevels _ _ _ v) fun v => pos_setLevels _ _ _ v) _ ha

theorem marked_accounts (hkeys : KeysOK s) (p : IndexPriceUpdated) :
    AllAccounts I (markedState s p) := by
  have hmark (v : String) := pos_markToMarket { s with lastObserverSeq := p.observerSeq } p.price v
  have hmarked := keysOK_marked hkeys p
  intro v
  have hv : I v (s.bal v) (markPosition p.price (s.pos v)) := hR.mark (h v)
  unfold markedState
  rcases liquidationSweep_account hmarked p.price v with ⟨-, hb, hp⟩ | ⟨hb, hp⟩
  · rw [hb, hp, hmark]
    exact hR.liquidate hv
  · rw [hb, hp, hmark]
    exact hv

end Rules

theorem fill_margins_onGrid (o : PlaceOrder) (y : RestingOrder × ℚ) :
    LegsOK (fun _ fm _ => Grid fm) o y :=
  ⟨makerFillMargin_grid _ _, grid_q _⟩

/-- A fill of some quantity, with its margin. -/
def Funded (f fm : ℚ) : Prop := 0 < f ∧ 0 ≤ fm ∧ Grid fm

theorem funded_legs (hbook : BookOK s) {o : PlaceOrder} (ho : o.Valid) :
    ∀ y ∈ fillsOf s o, LegsOK (fun f fm _ => Funded f fm) o y := by
  intro y hy
  have hpos := (fillsOf_bounds hbook hy).1
  have hmaker : y.1 ∈ ordersOf (levelsFor s (maker_side o.side)) :=
    crossing_subset (hits_mem (List.mem_map_of_mem hy))
  have hmargin := ((hbook.side _).order hmaker).margin_nonneg
  exact ⟨⟨hpos, makerFillMargin_nonneg hmargin hpos.le, makerFillMargin_grid _ _⟩,
    ⟨hpos, takerFillMargin_nonneg ho hpos.le, grid_q _⟩⟩

theorem settleFill_accounts (hR : FillRules A F mmr I) (e : EnvelopeMeta) {o : PlaceOrder}
    {m : Matching} (h : AllAccounts I m.state) (hmmr : m.state.market.maintenanceMarginRate = mmr)
    {x : RestingOrder} (hlegs : LegsOK F o (x, min m.remaining x.remaining)) :
    AllAccounts I (settleFill e o m x).state := by
  have hmaker := applyFill_accounts hR h hmmr x.userId x.side x.price hlegs.1
  have hboth : AllAccounts I (filledLegs o m x) := by
    refine applyFill_accounts hR hmaker ?_ o.userId o.side x.price hlegs.2
    rw [applyFill_eq]
    exact hmmr
  rw [settleFill_state]
  exact hboth.congr (fun _ => rfl) fun _ => rfl

/-- The fills of a queue, one after the other. -/
theorem settleAll_accounts (hR : FillRules A F mmr I) (e : EnvelopeMeta) {o : PlaceOrder}
    {m : Matching} (h : AllAccounts I m.state) (hmmr : m.state.market.maintenanceMarginRate = mmr)
    {os : List RestingOrder} (hlegs : ∀ y ∈ hits os m.remaining, LegsOK F o y) :
    AllAccounts I (settleAll e o m ((hits os m.remaining).map Prod.fst)).state := by
  induction os generalizing m with
  | nil => exact h
  | cons x xs ih =>
    rw [hits] at hlegs ⊢
    split_ifs at hlegs ⊢ with hr
    · have hfill := settleFill_accounts hR e h hmmr (hlegs _ List.mem_cons_self)
      have ih := ih hfill ((congrArg _ (settleFill_market e o m x)).trans hmmr)
      rw [settleFill_remaining] at ih
      exact ih fun y hy => hlegs y (List.mem_cons_of_mem _ hy)
    · exact h

theorem placed_accounts (hR : FillRules A F mmr I) (h : AllAccounts I s)
    (hmmr : s.market.maintenanceMarginRate = mmr) (e : EnvelopeMeta) {o : PlaceOrder}
    (ha : A o.margin) (hl : (lock s o.userId o.margin).2 = true)
    (hlegs : ∀ y ∈ fillsOf s o, LegsOK F o y) : AllAccounts I (placedState s e o) := by
  have hfilled : AllAccounts I (filledOrder s e o).state :=
    settleAll_accounts hR e (m := matchStart _ o) (lock_accounts hR h ha hl)
      ((congrArg _ (lock_market s _ _)).trans hmmr) hlegs
  have hmatched : AllAccounts I (matched s e o).state :=
    hfilled.congr (matched_bal s e o) (matched_pos s e o)
  have hrem := settleRemainder_cases e o (matched s e o)
  show AllAccounts I (settleRemainder e o (matched s e o)).1
  generalize settleRemainder e o (matched s e o) = r at hrem
  cases hrem with
  | rests =>
    exact hmatched.congr (fun v => bal_setLevels _ _ _ v) fun v => pos_setLevels _ _ _ v
  | refunded => exact release_accounts hR hmatched _ (grid_q _)
  | filled => exact hmatched

theorem reachable_keysOK {P : EngineInputEvent → Prop} {market : MarketConfig} {s : EngineState}
    (h : Reachable P market s) : KeysOK s := by
  induction h with
  | init => exact keysOK_createState market
  | event _ e _ id ih => exact keysOK_step ih e id
  | restored _ ht ih => exact keysOK_of_pos ih (restored_same ht).pos

/-- The event credits a user. -/
def Credits (e : EngineInputEvent) (u : String) (amount : ℚ) : Prop :=
  e.payload = .userCreated ⟨u, amount⟩ ∨ e.payload = .balanceDeposited ⟨u, amount⟩

theorem dispatch_credits (s : EngineState) {e : EngineInputEvent} {u : String} {amount : ℚ}
    (hc : Credits e u amount) (ha : 0 < amount) :
    SameAccounts (credit s u amount) (dispatch s e).1 := by
  unfold dispatch
  rcases hc with hp | hp
  · rw [hp]
    exact onUserCreated_credits s u ha
  · rw [hp]
    exact onBalanceDeposited_credits s u amount

/-- What an event does keeps the relation, if crediting does. -/
theorem effect_accounts (hR : FillRules A F s.market.maintenanceMarginRate I) (h : AllAccounts I s)
    (hkeys : KeysOK s) (hbook : BookOK s) {e : EngineInputEvent}
    (hplace : ∀ o, e.payload = .orderPlace o → placeRejection s o = none →
      (lock s o.userId o.margin).2 = true → A o.margin ∧ ∀ y ∈ fillsOf s o, LegsOK F o y)
    (hcredit : ∀ u amount, 0 < amount → Credits e u amount → AllAccounts I (credit s u amount))
    (heff : Effect s e t) : AllAccounts I t := by
  cases heff with
  | unchanged => exact h
  | opened hsame => exact h.congr hsame.bal hsame.pos
  | credited u amount hpos hp hsame => exact (hcredit u amount hpos hp).congr hsame.bal hsame.pos
  | placed o hp hr hl hsame =>
    obtain ⟨ha, hlegs⟩ := hplace o hp hr hl
    exact (placed_accounts hR h rfl e.toEnvelopeMeta ha hl hlegs).congr hsame.bal hsame.pos
  | cancelled c level removed hp hlevel hremoved huser hsame =>
    have hmem : removed ∈ ordersOf (levelsFor s c.side) := mem_ordersOf.mpr
      ⟨level, List.mem_of_find?_eq_some hlevel, List.mem_of_find?_eq_some hremoved⟩
    have hgrid := ((hbook.side c.side).order hmem).margin_grid
    exact (cancelled_accounts hR h hgrid).congr hsame.bal hsame.pos
  | marked p hp hseq hsame => exact (marked_accounts hR h hkeys p).congr hsame.bal hsame.pos

theorem credit_accounts (h : AllAccounts I s)
    (hadd : ∀ {u b p amount}, I u b p → I u (b.add amount) p) (u : String) (amount : ℚ) :
    AllAccounts I (credit s u amount) := by
  rw [credit_eq]
  intro v
  rw [bal_set]
  split_ifs with hv
  · subst hv
    exact hadd (h v)
  · exact h v

/-- One event, of a relation that crediting keeps. -/
theorem process_accounts (hR : FillRules A F s.market.maintenanceMarginRate I)
    (hadd : ∀ {u b p amount}, I u b p → I u (b.add amount) p) (h : AllAccounts I s)
    (hkeys : KeysOK s) (hbook : BookOK s) {e : EngineInputEvent} (he : engineInputEventSchema e)
    (hplace : ∀ o, Accepted s e o → A o.margin ∧ ∀ y ∈ fillsOf s o, LegsOK F o y) (id : StreamId) :
    AllAccounts I (process s e id).1 := by
  by_cases ha : alreadyApplied s e = true
  · rw [process_applied ha]
    exact h
  · have hcore := process_new ha id
    refine AllAccounts.congr ?_ hcore.bal hcore.pos
    exact effect_accounts hR h hkeys hbook (fun o hp hr hl => hplace o ⟨hp, ha, hr, hl⟩)
      (fun u amount _ _ => credit_accounts h hadd u amount) (dispatch_effect s e he)

end Engine

end Perps
