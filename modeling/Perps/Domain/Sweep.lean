import Perps.Domain.Placement

/-! The liquidation sweep, user by user. The sweep goes through the position map
and every round works on the account of its own key, so that what it does to a
user depends on that user's records alone, not on the order of the map. -/

namespace Perps

open Lib

/-- Every position is stored under its own user. -/
def KeysOK (s : EngineState) : Prop := ∀ u, (s.pos u).userId = u

theorem KeysOK.entry {s : EngineState} (h : KeysOK s) {x : String × Position}
    (hx : x ∈ s.positions.entries) : x.2.userId = x.1 := by
  have hpos := h x.1
  rwa [EngineState.pos, (s.positions.mem_entries_iff x.1 x.2).mp hx] at hpos

/-- The profit or loss of closing `p` at `markPrice`. -/
def closePnl (markPrice : ℚ) (p : Position) : ℚ := q ((markPrice - p.entryPrice) * p.size)

/-- The balance of a liquidated user. -/
def liquidatedBal (markPrice : ℚ) (b : Balance) (p : Position) : Balance :=
  (b.release p.margin).add (closePnl markPrice p)

/-- A liquidated position. -/
def liquidatedPos (markPrice : ℚ) (p : Position) : Position :=
  { p with
    realizedPnl := q (p.realizedPnl + closePnl markPrice p)
    size := 0
    entryPrice := 0
    margin := 0
    liqPrice := 0
    unrealizedPnl := 0 }

/-- One round, as an update of one account. -/
theorem liquidateOne_eq (markPrice : ℚ) (acc : EngineState × List PositionLiquidated) {u : String}
    {p : Position} (hu : p.userId = u) :
    (liquidateOne markPrice acc (u, p)).1 =
      if underwater markPrice p then
        acc.1.withAccount u
          (some (liquidatedBal markPrice (acc.1.bal u) p), liquidatedPos markPrice p)
      else acc.1 := by
  subst hu
  unfold liquidateOne
  dsimp only
  split_ifs
  · simp only [release_eq, applyPnl_eq, putPosition, EngineState.bal, OrdMap.get?_set_self,
      Option.getD_some, OrdMap.set_set]
    rfl
  · rfl

/-- The liquidation of `p`. -/
def liquidationOf (markPrice : ℚ) (p : Position) : PositionLiquidated where
  userId := p.userId
  markPrice := markPrice
  realizedPnl := closePnl markPrice p

theorem liquidateOne_snd (markPrice : ℚ) (acc : EngineState × List PositionLiquidated)
    (x : String × Position) :
    (liquidateOne markPrice acc x).2 =
      if underwater markPrice x.2 then acc.2 ++ [liquidationOf markPrice x.2] else acc.2 := by
  unfold liquidateOne
  dsimp only
  split_ifs <;> rfl

variable {markPrice : ℚ} {es : List (String × Position)}

/-- The records of a user, as far as they are stored. -/
def records (s : EngineState) (u : String) : Option Balance × Option Position :=
  (s.balances.get? u, s.positions.get? u)

theorem records_setLevels {s : EngineState} (side : Side) (levels : List PriceLevel) (v : String) :
    records (setLevels s side levels) v = records s v := by
  cases side <;> rfl

theorem records_withAccount (s : EngineState) (u v : String) (b : Balance) (p : Position) :
    records (s.withAccount u (some b, p)) v = if v = u then (some b, some p) else records s v := by
  unfold records EngineState.withAccount
  simp only [OrdMap.get?_set]
  split_ifs <;> rfl

/-- What the rounds over `es` do to the records of `v`. -/
theorem sweep_records (hkeys : ∀ x ∈ es, x.2.userId = x.1) (hnodup : (es.map Prod.fst).Nodup)
    (acc : EngineState × List PositionLiquidated) (v : String) :
    records (es.foldl (liquidateOne markPrice) acc).1 v =
      match (OrdMap.getEntry v es).filter (underwater markPrice) with
      | some p =>
        (some (liquidatedBal markPrice (acc.1.bal v) p), some (liquidatedPos markPrice p))
      | none => records acc.1 v := by
  induction es generalizing acc with
  | nil => rfl
  | cons x xs ih =>
    obtain ⟨u, p⟩ := x
    rw [List.map_cons, List.nodup_cons] at hnodup
    have ih := ih (fun y hy => hkeys y (List.mem_cons_of_mem _ hy)) hnodup.2
      (liquidateOne markPrice acc (u, p))
    have hone := liquidateOne_eq markPrice acc (hkeys _ List.mem_cons_self)
    dsimp only at hone
    rw [List.foldl_cons, ih, OrdMap.getEntry]
    by_cases hv : u = v
    · -- no later round has the same key
      subst hv
      rw [OrdMap.getEntry_of_notMem hnodup.1, if_pos rfl, hone]
      cases hu : underwater markPrice p with
      | true => simp [Option.filter, hu, records_withAccount]
      | false => simp [Option.filter, hu]
    · have hrec : records (liquidateOne markPrice acc (u, p)).1 v = records acc.1 v := by
        rw [hone]
        split_ifs
        · rw [records_withAccount, if_neg (Ne.symm hv)]
        · rfl
      have hbal : (liquidateOne markPrice acc (u, p)).1.bal v = acc.1.bal v :=
        congrArg (fun r => r.1.getD .zero) hrec
      rw [if_neg hv, hrec, hbal]

/-- What the sweep does to the records of `v`. -/
theorem liquidationSweep_records {s : EngineState} (hkeys : KeysOK s) (markPrice : ℚ)
    (v : String) :
    records (liquidationSweep s markPrice).1 v =
      match (s.positions.get? v).filter (underwater markPrice) with
      | some p => (some (liquidatedBal markPrice (s.bal v) p), some (liquidatedPos markPrice p))
      | none => records s v :=
  sweep_records (fun _ hx => hkeys.entry hx) s.positions.nodup (s, []) v

/-- The sweep touches nothing but the two maps. -/
theorem liquidationSweep_core (s : EngineState) (markPrice : ℚ) :
    (liquidationSweep s markPrice).1 = { s with
      balances := (liquidationSweep s markPrice).1.balances
      positions := (liquidationSweep s markPrice).1.positions } := by
  unfold liquidationSweep
  generalize s.positions.entries = es
  have hround (acc : EngineState × List PositionLiquidated) (x : String × Position) :
      (liquidateOne markPrice acc x).1 = { acc.1 with
        balances := (liquidateOne markPrice acc x).1.balances
        positions := (liquidateOne markPrice acc x).1.positions } := by
    simp only [liquidateOne, release_eq, applyPnl_eq, putPosition]
    split_ifs <;> rfl
  suffices ∀ acc : EngineState × List PositionLiquidated,
      (es.foldl (liquidateOne markPrice) acc).1 = { acc.1 with
        balances := (es.foldl (liquidateOne markPrice) acc).1.balances
        positions := (es.foldl (liquidateOne markPrice) acc).1.positions } from this (s, [])
  induction es with
  | nil => exact fun acc => rfl
  | cons x xs ih =>
    intro acc
    rw [List.foldl_cons, ih, hround]

/-- The sweep sets keys that are there. -/
theorem sweep_keys (acc : EngineState × List PositionLiquidated)
    (hes : ∀ x ∈ es, x.1 ∈ acc.1.positions.keys) :
    (es.foldl (liquidateOne markPrice) acc).1.positions.keys = acc.1.positions.keys := by
  induction es generalizing acc with
  | nil => rfl
  | cons x xs ih =>
    have hone : (liquidateOne markPrice acc x).1.positions.keys = acc.1.positions.keys := by
      simp only [liquidateOne, release_eq, applyPnl_eq, putPosition]
      split_ifs
      · exact (OrdMap.keys_set _ _ _).trans (if_pos (hes x List.mem_cons_self))
      · rfl
    refine (ih (liquidateOne markPrice acc x) fun y hy => ?_).trans hone
    rw [hone]
    exact hes y (List.mem_cons_of_mem _ hy)

theorem liquidationSweep_keys (s : EngineState) (markPrice : ℚ) :
    (liquidationSweep s markPrice).1.positions.keys = s.positions.keys :=
  sweep_keys (s, []) fun _ hx => List.mem_map_of_mem hx

theorem sweep_snd (acc : EngineState × List PositionLiquidated) :
    (es.foldl (liquidateOne markPrice) acc).2 = acc.2 ++
      (es.filter fun x => underwater markPrice x.2).map fun x => liquidationOf markPrice x.2 := by
  induction es generalizing acc with
  | nil => simp
  | cons x xs ih =>
    rw [List.foldl_cons, ih, liquidateOne_snd, List.filter_cons]
    split_ifs <;> simp

/-- The entries that the price liquidates, in the order of the map. -/
def doomed (s : EngineState) (markPrice : ℚ) : List (String × Position) :=
  s.positions.entries.filter fun x => underwater markPrice x.2

theorem liquidationSweep_snd (s : EngineState) (markPrice : ℚ) :
    (liquidationSweep s markPrice).2 =
      (doomed s markPrice).map fun x => liquidationOf markPrice x.2 := by
  rw [liquidationSweep, sweep_snd, List.nil_append, doomed]

/-- Marking changes none of the fields that the sweep looks at. -/
theorem doomed_markToMarket (s : EngineState) (markPrice : ℚ) :
    doomed (markToMarket s markPrice) markPrice =
      (doomed s markPrice).map fun x => (x.1, markPosition markPrice x.2) := by
  unfold doomed markToMarket OrdMap.mapValues
  rw [List.filter_map]
  rfl

/-- In terms of the records with their defaults: a user is either liquidated or
left alone. -/
theorem liquidationSweep_account {s : EngineState} (hkeys : KeysOK s) (markPrice : ℚ)
    (v : String) :
    let t := (liquidationSweep s markPrice).1
    (underwater markPrice (s.pos v) = true ∧
        t.bal v = liquidatedBal markPrice (s.bal v) (s.pos v) ∧
        t.pos v = liquidatedPos markPrice (s.pos v)) ∨
      (t.bal v = s.bal v ∧ t.pos v = s.pos v) := by
  have h := liquidationSweep_records hkeys markPrice v
  have hmark : (liquidationSweep s markPrice).1.markPrice = s.markPrice := by
    rw [liquidationSweep_core]
  dsimp only
  unfold records at h
  simp only [EngineState.bal, EngineState.pos, hmark]
  cases hp : s.positions.get? v with
  | none =>
    rw [hp] at h
    simp only [Option.filter_none, Prod.mk.injEq] at h
    rw [h.1, h.2]
    exact Or.inr ⟨rfl, rfl⟩
  | some p =>
    rw [hp] at h
    cases hu : underwater markPrice p with
    | false =>
      simp only [Option.filter, hu, Prod.mk.injEq, Bool.false_eq_true, if_false] at h
      rw [h.1, h.2]
      exact Or.inr ⟨rfl, rfl⟩
    | true =>
      simp only [Option.filter, hu, if_true, Prod.mk.injEq] at h
      rw [h.1, h.2]
      exact Or.inl ⟨hu, rfl, rfl⟩

namespace Engine

/-! Every handler keeps the positions under their users. -/

theorem fillLeg_userId (mmr : ℚ) (b : Balance) (p : Position) (side : Side)
    (price f fm lev : ℚ) : (fillLeg mmr b p side price f fm lev).2.userId = p.userId := by
  have hliq (r : Position) : (refreshLiq mmr r).userId = r.userId := by
    unfold refreshLiq
    split_ifs <;> rfl
  have h := fillLeg_case mmr b p side price f fm lev
  generalize fillLeg mmr b p side price f fm lev = r at h
  cases h <;> first | exact hliq _ | rfl

theorem keysOK_applyFill {s : EngineState} (h : KeysOK s) (u : String) (side : Side)
    (price f fm lev : ℚ) : KeysOK (applyFill s u side price f fm lev) := by
  intro v
  rw [applyFill_eq, pos_withAccount]
  split_ifs with hv
  · rw [fillLeg_userId, hv]
    exact h u
  · exact h v

theorem keysOK_settleAll (e : EnvelopeMeta) (o : PlaceOrder) {m : Matching} (h : KeysOK m.state)
    (os : List RestingOrder) : KeysOK (settleAll e o m os).state := by
  induction os generalizing m with
  | nil => exact h
  | cons x xs ih =>
    refine ih (m := settleFill e o m x) ?_
    intro v
    exact keysOK_applyFill (keysOK_applyFill h _ _ _ _ _ _) _ _ _ _ _ _ v

theorem keysOK_of_pos {s t : EngineState} (h : KeysOK s) (ht : ∀ u, t.pos u = s.pos u) : KeysOK t :=
  fun u => by rw [ht, h]

theorem keysOK_createState (market : MarketConfig) : KeysOK (createState market) := fun _ => rfl

theorem pos_lock (s : EngineState) (u : String) (a : ℚ) (v : String) :
    (lock s u a).1.pos v = s.pos v := by
  unfold lock ensureBalance
  cases s.balances.get? u <;> dsimp only <;> split_ifs <;> rfl

theorem pos_setLevels (s : EngineState) (side : Side) (levels : List PriceLevel) (v : String) :
    (setLevels s side levels).pos v = s.pos v := by
  cases side <;> rfl

theorem pos_remainder {e : EnvelopeMeta} {o : PlaceOrder} {m : Matching}
    {r : EngineState × List DraftOutput × OrderStatus} (h : Remainder e o m r) (v : String) :
    r.1.pos v = m.state.pos v := by
  cases h with
  | rests => exact pos_setLevels _ _ _ v
  | refunded =>
    rw [release_eq]
    rfl
  | filled => rfl

theorem pos_placed (s : EngineState) (e : EnvelopeMeta) (o : PlaceOrder) (v : String) :
    (placedState s e o).pos v = (filledOrder s e o).state.pos v := by
  refine (pos_remainder (settleRemainder_cases e o (matched s e o)) v).trans ?_
  rw [(matched_spec s e o).state]
  exact pos_setLevels _ _ _ v

theorem pos_markToMarket (s : EngineState) (markPrice : ℚ) (v : String) :
    (markToMarket s markPrice).pos v = markPosition markPrice (s.pos v) := by
  unfold markToMarket EngineState.pos
  rw [OrdMap.get?_mapValues]
  cases s.positions.get? v <;> simp [markPosition, Position.flat]

theorem keysOK_marked {s : EngineState} (h : KeysOK s) (p : IndexPriceUpdated) :
    KeysOK (markToMarket { s with lastObserverSeq := p.observerSeq } p.price) := by
  intro v
  rw [pos_markToMarket]
  exact h v

theorem keysOK_effect {s t : EngineState} {e : EngineInputEvent} (heff : Effect s e t)
    (h : KeysOK s) : KeysOK t := by
  cases heff with
  | unchanged => exact h
  | opened hsame => exact keysOK_of_pos h hsame.pos
  | credited u amount _ _ hsame =>
    refine keysOK_of_pos (keysOK_of_pos h fun v => ?_) hsame.pos
    rw [credit_eq]
    rfl
  | placed o _ _ _ hsame =>
    refine keysOK_of_pos (keysOK_of_pos ?_ (pos_placed s e.toEnvelopeMeta o)) hsame.pos
    exact keysOK_settleAll _ _ (keysOK_of_pos h fun v => pos_lock _ _ _ v) _
  | cancelled c level removed _ _ _ _ hsame =>
    refine keysOK_of_pos (keysOK_of_pos h fun v => ?_) hsame.pos
    rw [release_eq]
    exact pos_setLevels _ _ _ v
  | marked p _ _ hsame =>
    have hmark := keysOK_marked h p
    refine keysOK_of_pos (fun v => ?_) hsame.pos
    rcases liquidationSweep_account hmark p.price v with ⟨-, -, hp⟩ | ⟨-, hp⟩
    · exact (congrArg Position.userId hp).trans (hmark v)
    · exact (congrArg Position.userId hp).trans (hmark v)

theorem keysOK_dispatch {s : EngineState} (h : KeysOK s) (e : EngineInputEvent) :
    KeysOK (dispatch s e).1 := by
  rcases dispatch_effect_or_credit s e with heff | ⟨u, amount, hsame⟩
  · exact keysOK_effect heff h
  · refine keysOK_of_pos (keysOK_of_pos h fun v => ?_) hsame.pos
    rw [credit_eq]
    rfl

theorem keysOK_step {s : EngineState} (h : KeysOK s) (e : EngineInputEvent) (id : StreamId) :
    KeysOK (process s e id).1 := by
  by_cases ha : alreadyApplied s e = true
  · rw [process_applied ha]
    exact keysOK_of_pos h fun v => (sameCore_lastInputId s id).pos v
  · exact keysOK_of_pos (keysOK_dispatch h e) (process_new ha id).pos

theorem keysOK_steps {s : EngineState} (h : KeysOK s) (evs : List (EngineInputEvent × StreamId)) :
    KeysOK (run s evs).1 := by
  induction evs generalizing s with
  | nil => exact h
  | cons x xs ih => exact ih (keysOK_step h x.1 x.2)

/-- Only orders and prices change positions. -/
theorem effect_pos {s t : EngineState} {e : EngineInputEvent} (heff : Effect s e t)
    (hplace : ∀ o, e.payload ≠ .orderPlace o) (hprice : ∀ p, e.payload ≠ .indexPriceUpdated p)
    (v : String) : t.pos v = s.pos v := by
  cases heff with
  | unchanged => rfl
  | opened hsame => exact hsame.pos v
  | credited u amount _ _ hsame =>
    rw [hsame.pos, credit_eq]
    rfl
  | placed o hp => exact absurd hp (hplace o)
  | cancelled c level removed _ _ _ _ hsame =>
    rw [hsame.pos, release_eq]
    exact pos_setLevels _ _ _ v
  | marked p hp => exact absurd hp (hprice p)

end Engine

end Perps
