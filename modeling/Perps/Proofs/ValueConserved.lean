import Perps.Proofs.CashLedger
import Perps.Proofs.LiquidationSweep
import Perps.Proofs.MarkToMarket
import Perps.Proofs.OpenInterest

/-! The books of the whole engine: trades move value from user to user, and create or
destroy none of it but what the roundings of the entry prices and of the realized
profits do. Liquidations take a position over at the mark price. -/

namespace Perps

open Lib

namespace Engine

/-- The equity of all positions at the reference price `P`. -/
def totalEquity (s : EngineState) (P : ℚ) : ℚ := s.positions.sumValues fun p => p.equity P

section Sums

theorem equity_pos (s : EngineState) (u : String) (P : ℚ) :
    ((s.positions.get? u).map fun p => p.equity P).getD 0 = (s.pos u).equity P := by
  unfold EngineState.pos
  cases s.positions.get? u with
  | none => simp [Position.equity, Position.flat]
  | some p => rfl

theorem totalEquity_congr {s t : EngineState} (h : ∀ v, t.pos v = s.pos v) (P : ℚ) :
    totalEquity t P = totalEquity s P :=
  OrdMap.sumValues_congr _ fun v => by rw [equity_pos, equity_pos, h]

theorem totalEquity_withAccount (s : EngineState) (u : String) (r : Option Balance × Position)
    (P : ℚ) : totalEquity (s.withAccount u r) P =
      totalEquity s P - (s.pos u).equity P + r.2.equity P := by
  rw [← equity_pos]
  exact OrdMap.sumValues_set _ _ _ _

end Sums

/-- Records on the grid, with sizes within the volume `V`. -/
structure RecordsWithin (V : ℚ) (s : EngineState) : Prop where
  grid : ∀ u, RecordOnGrid (s.pos u)
  bounded : ∀ u, |(s.pos u).size| ≤ V

theorem RecordsWithin.congr {V : ℚ} {s t : EngineState} (h : RecordsWithin V s)
    (hpos : ∀ v, t.pos v = s.pos v) : RecordsWithin V t :=
  ⟨fun u => hpos u ▸ h.grid u, fun u => hpos u ▸ h.bounded u⟩

section Fills

variable {s : EngineState} {V f : ℚ}

theorem abs_signedQty (side : Side) (hf : 0 < f) : |signedQty side f| = f := by
  cases side
  · exact abs_of_pos hf
  · exact (abs_neg f).trans (abs_of_pos hf)

/-- One leg: the equity of everybody changes by what the quantity is worth. -/
theorem applyFill_value (h : ∀ u, RecordOnGrid (s.pos u)) (u : String) (side : Side) (hf : 0 < f)
    (hfg : Grid f) (price fm lev P : ℚ) :
    |totalEquity (applyFill s u side price f fm lev) P - totalEquity s P -
        signedQty side f * (P - price)| ≤
      halfStep * (1 + |((applyFill s u side price f fm lev).pos u).size|) := by
  have hleg := (applyFill_equity side price fm lev (h u) hf hfg P).2
  have htotal : totalEquity (applyFill s u side price f fm lev) P =
      totalEquity s P - (s.pos u).equity P +
        ((applyFill s u side price f fm lev).pos u).equity P := by
    rw [applyFill_eq, totalEquity_withAccount, pos_withAccount, if_pos rfl]
  refine le_of_eq_of_le (congrArg _ ?_) hleg
  rw [htotal]
  ring

theorem applyFill_pos_size (h : ∀ u, RecordOnGrid (s.pos u)) (u v : String) (side : Side)
    (hf : 0 < f) (hfg : Grid f) (price fm lev : ℚ) :
    ((applyFill s u side price f fm lev).pos v).size =
      (s.pos v).size + if v = u then signedQty side f else 0 := by
  split_ifs with hv
  · rw [hv]
    exact (applyFill_equity side price fm lev (h u) hf hfg 0).1
  · rw [applyFill_eq, pos_withAccount, if_neg hv, add_zero]

/-- A trade: both legs together change the equity of everybody by two roundings each. -/
theorem settleFill_value (e : EnvelopeMeta) {o : PlaceOrder} {m : Matching} {x : RestingOrder}
    (h : RecordsWithin V m.state) (hside : x.side = maker_side o.side)
    (hf : 0 < min m.remaining x.remaining) (hfg : Grid (min m.remaining x.remaining)) (P : ℚ) :
    RecordsWithin (V + min m.remaining x.remaining) (settleFill e o m x).state ∧
      |totalEquity (settleFill e o m x).state P - totalEquity m.state P| ≤
        2 * halfStep * (1 + (V + min m.remaining x.remaining)) := by
  set f := min m.remaining x.remaining with hfdef
  set s₁ := applyFill m.state x.userId x.side x.price f (makerFillMargin x f) x.leverage with hs₁
  set s₂ := applyFill s₁ o.userId o.side x.price f (takerFillMargin o f) o.leverage with hs₂
  have hgrid₁ : ∀ u, RecordOnGrid (s₁.pos u) := fun u =>
    applyFill_recordOnGrid x.side x.price _ _ hfg (h.grid _) (h.grid u)
  have hgrid₂ : ∀ u, RecordOnGrid (s₂.pos u) := fun u =>
    applyFill_recordOnGrid o.side x.price _ _ hfg (hgrid₁ _) (hgrid₁ u)
  have hsize₁ (v : String) := applyFill_pos_size h.grid x.userId v x.side hf hfg x.price
    (makerFillMargin x f) x.leverage
  have hsize₂ (v : String) := applyFill_pos_size hgrid₁ o.userId v o.side hf hfg x.price
    (takerFillMargin o f) o.leverage
  have hopp : signedQty x.side f = -signedQty o.side f := by rw [hside, signedQty_maker_side]
  have hleg (side : Side) (v : String) : |(m.state.pos v).size + signedQty side f| ≤ V + f :=
    (abs_add_le _ _).trans (add_le_add (h.bounded v) (abs_signedQty side hf).le)
  have hbound₁ : |(s₁.pos x.userId).size| ≤ V + f := by
    rw [hsize₁, if_pos rfl]
    exact hleg x.side x.userId
  -- a user on both sides of the trade ends with the size that was there before
  have hbound₂ (v : String) : |(s₂.pos v).size| ≤ V + f := by
    have hV := h.bounded v
    rw [hsize₂, hsize₁]
    by_cases hx : v = x.userId <;> by_cases ho : v = o.userId
    · rw [if_pos hx, if_pos ho, hopp, neg_add_cancel_right]
      linarith
    · rw [if_pos hx, if_neg ho, add_zero]
      exact hleg x.side v
    · rw [if_neg hx, if_pos ho, add_zero]
      exact hleg o.side v
    · rw [if_neg hx, if_neg ho, add_zero, add_zero]
      linarith
  have hstate (v : String) : (settleFill e o m x).state.pos v = s₂.pos v := by
    rw [settleFill_state]
    rfl
  refine ⟨(RecordsWithin.mk hgrid₂ hbound₂).congr hstate, ?_⟩
  rw [totalEquity_congr hstate]
  have hmaker := applyFill_value h.grid x.userId x.side hf hfg x.price (makerFillMargin x f)
    x.leverage P
  have htaker := applyFill_value hgrid₁ o.userId o.side hf hfg x.price (takerFillMargin o f)
    o.leverage P
  rw [hopp] at hmaker
  have h₁ := mul_le_mul_of_nonneg_left hbound₁ halfStep_nonneg
  have h₂ := mul_le_mul_of_nonneg_left (hbound₂ o.userId) halfStep_nonneg
  calc |totalEquity s₂ P - totalEquity m.state P|
      = |(totalEquity s₁ P - totalEquity m.state P - -signedQty o.side f * (P - x.price)) +
          (totalEquity s₂ P - totalEquity s₁ P - signedQty o.side f * (P - x.price))| := by
        congr 1
        ring
    _ ≤ halfStep * (1 + |(s₁.pos x.userId).size|) + halfStep * (1 + |(s₂.pos o.userId).size|) :=
        (abs_add_le _ _).trans (add_le_add hmaker htaker)
    _ ≤ 2 * halfStep * (1 + (V + f)) := by linarith

theorem traded_cons (y : RestingOrder × ℚ) (ys : List (RestingOrder × ℚ)) :
    traded (y :: ys) = y.2 + traded ys := by
  unfold traded
  rw [List.map_cons, List.sum_cons]

theorem traded_nonneg {ys : List (RestingOrder × ℚ)} (h : ∀ y ∈ ys, 0 < y.2) : 0 ≤ traded ys :=
  List.sum_nonneg fun x hx => by
    obtain ⟨y, hy, rfl⟩ := List.mem_map.mp hx
    exact (h y hy).le

/-- The trades of a queue, none of which lets a size leave the bound `W`. -/
theorem settleAll_value (e : EnvelopeMeta) {o : PlaceOrder} {os : List RestingOrder} {m : Matching}
    {W : ℚ} (h : RecordsWithin V m.state) (hside : ∀ x ∈ os, x.side = maker_side o.side)
    (hpos : ∀ y ∈ hits os m.remaining, 0 < y.2) (hgrid : ∀ y ∈ hits os m.remaining, Grid y.2)
    (hW : V + traded (hits os m.remaining) ≤ W) (P : ℚ) :
    RecordsWithin (V + traded (hits os m.remaining))
        (settleAll e o m ((hits os m.remaining).map Prod.fst)).state ∧
      |totalEquity (settleAll e o m ((hits os m.remaining).map Prod.fst)).state P -
          totalEquity m.state P| ≤
        2 * halfStep * (hits os m.remaining).length * (1 + W) := by
  induction os generalizing m V with
  | nil =>
    refine ⟨?_, ?_⟩
    · rw [show traded (hits [] m.remaining) = 0 from rfl, add_zero]
      exact h
    · simp [hits, settleAll]
  | cons x xs ih =>
    rw [hits] at hpos hgrid hW ⊢
    split_ifs at hpos hgrid hW ⊢ with hr
    · rw [traded_cons] at hW ⊢
      dsimp only at hW ⊢
      have hx := hpos _ List.mem_cons_self
      have hrest : ∀ y ∈ hits xs (q (m.remaining - min m.remaining x.remaining)), 0 < y.2 :=
        fun y hy => hpos y (List.mem_cons_of_mem _ hy)
      have hnonneg := traded_nonneg hrest
      obtain ⟨hone, hdrift⟩ := settleFill_value e h (hside x List.mem_cons_self) hx
        (hgrid _ List.mem_cons_self) P
      have ih := ih (m := settleFill e o m x) hone (fun y hy => hside y (List.mem_cons_of_mem _ hy))
      rw [settleFill_remaining] at ih
      obtain ⟨hall, hmore⟩ := ih hrest (fun y hy => hgrid y (List.mem_cons_of_mem _ hy))
        (by linarith)
      refine ⟨by rwa [← add_assoc], ?_⟩
      have hlast : 2 * halfStep * (1 + (V + min m.remaining x.remaining)) ≤
          2 * halfStep * (1 + W) :=
        mul_le_mul_of_nonneg_left (by linarith) (by linarith [halfStep_nonneg])
      rw [List.length_cons, List.map_cons]
      push_cast
      calc _ ≤ |totalEquity (settleAll e o (settleFill e o m x)
                ((hits xs (q (m.remaining - min m.remaining x.remaining))).map Prod.fst)).state P -
              totalEquity (settleFill e o m x).state P| +
            |totalEquity (settleFill e o m x).state P - totalEquity m.state P| := abs_sub_le _ _ _
        _ ≤ _ := by linarith
    · refine ⟨?_, ?_⟩
      · rw [show traded [] = 0 from rfl, add_zero]
        exact h
      · simp [settleAll]

end Fills

/-- What an accepted order does to the equity of everybody. -/
theorem placed_value {s : EngineState} {V W : ℚ} (h : RecordsWithin V s) (hi : InterestOK s)
    (e : EnvelopeMeta) {o : PlaceOrder} (hQ : Grid o.quantity)
    (hW : V + traded (fillsOf s o) ≤ W) (P : ℚ) :
    RecordsWithin (V + traded (fillsOf s o)) (placedState s e o) ∧
      |totalEquity (placedState s e o) P - totalEquity s P| ≤
        2 * halfStep * (fillsOf s o).length * (1 + W) := by
  have hmakers : ∀ x ∈ crossing o (levelsFor s (maker_side o.side)),
      x ∈ ordersOf (levelsFor s (maker_side o.side)) := fun x hx => crossing_subset hx
  have hlock : RecordsWithin V (lock s o.userId o.margin).1 := h.congr fun v => pos_lock s _ _ v
  obtain ⟨hall, hdrift⟩ := settleAll_value e (m := matchStart (lock s o.userId o.margin).1 o) hlock
    (fun x hx => ((hi.book.side _).order (hmakers x hx)).side_eq)
    (fun y hy => (fillsOf_bounds hi.book hy).1)
    (hits_grid (fun x hx => hi.resting x (BookOK.resting_of_side s (hmakers x hx))) hQ) hW P
  have hpos (v : String) : (placedState s e o).pos v = (filledOrder s e o).state.pos v :=
    pos_placed s e o v
  refine ⟨hall.congr hpos, ?_⟩
  rw [totalEquity_congr hpos, ← totalEquity_congr (pos_lock s o.userId o.margin)]
  exact hdrift

/-! Liquidations -/

/-- What the sizes that a price liquidates are worth at `P`, over that price. -/
def takenAt (s : EngineState) (price P : ℚ) : ℚ :=
  ((doomed s price).map fun x => x.2.size * (P - price)).sum

theorem abs_sum_le {α : Type} {g : α → ℚ} {c : ℚ} {xs : List α} (h : ∀ x ∈ xs, |g x| ≤ c) :
    |(xs.map g).sum| ≤ xs.length * c := by
  induction xs with
  | nil => simp
  | cons x xs ih =>
    have hx := h x List.mem_cons_self
    have hxs := ih fun y hy => h y (List.mem_cons_of_mem _ hy)
    rw [List.map_cons, List.sum_cons, List.length_cons]
    push_cast
    refine (abs_add_le _ _).trans ?_
    linarith

theorem sum_ite_change {α : Type} (p : α → Bool) (f g : α → ℚ) (xs : List α) :
    (xs.map fun x => if p x then g x else f x).sum =
      (xs.map f).sum + ((xs.filter p).map fun x => g x - f x).sum := by
  induction xs with
  | nil => simp
  | cons x xs ih =>
    rw [List.map_cons, List.sum_cons, ih, List.map_cons, List.sum_cons, List.filter_cons]
    split_ifs
    · rw [List.map_cons, List.sum_cons]
      ring
    · ring

/-- A sweep changes the sum of a quantity where it liquidates. -/
theorem liquidationSweep_sum {s : EngineState} (hkeys : KeysOK s) (price : ℚ) (g : Position → ℚ) :
    (liquidationSweep s price).1.positions.sumValues g = s.positions.sumValues g +
      ((doomed s price).map fun x => g (liquidatedPos price x.2) - g x.2).sum := by
  have hlookup (v : String) : (liquidationSweep s price).1.positions.get? v =
      (s.positions.mapValues fun p =>
        if underwater price p then liquidatedPos price p else p).get? v := by
    have hrec := congrArg Prod.snd (liquidationSweep_records hkeys price v)
    rw [OrdMap.get?_mapValues]
    refine hrec.trans ?_
    unfold records
    cases s.positions.get? v with
    | none => rfl
    | some p => cases hu : underwater price p <;> simp [Option.filter, hu]
  have hsum := OrdMap.sumValues_congr g fun v =>
    congrArg (fun r => (r.map g).getD 0) (hlookup v)
  rw [hsum, OrdMap.sumValues_mapValues]
  simp only [apply_ite g]
  exact sum_ite_change _ _ _ _

/-- A liquidation gives the size away at the mark price, up to one rounding. -/
theorem liquidatedPos_equity {p : Position} (hpnl : Grid p.realizedPnl) (price P : ℚ) :
    |(liquidatedPos price p).equity P - p.equity P + p.size * (P - price)| ≤ halfStep := by
  have hround : (liquidatedPos price p).equity P - p.equity P + p.size * (P - price) =
      closePnl price p - (price - p.entryPrice) * p.size := by
    unfold Position.equity liquidatedPos closePnl
    dsimp only
    rw [q_of_grid (hpnl.add (grid_q _))]
    ring
  rw [hround]
  exact abs_q_sub_le _

theorem marked_value {s : EngineState} {V : ℚ} (h : RecordsWithin V s) (hkeys : KeysOK s)
    (hV : 0 ≤ V) (p : IndexPriceUpdated) (P : ℚ) :
    RecordsWithin V (markedState s p) ∧
      |totalEquity (markedState s p) P - totalEquity s P + takenAt s p.price P| ≤
        halfStep * (liquidationsOf s p).length := by
  have hmarked := keysOK_marked hkeys p
  have hmark (v : String) := pos_markToMarket { s with lastObserverSeq := p.observerSeq } p.price v
  constructor
  · constructor <;> intro v <;> unfold markedState <;>
      rcases liquidationSweep_account hmarked p.price v with ⟨-, -, hp⟩ | ⟨-, hp⟩ <;> rw [hp, hmark]
    · exact ⟨grid_zero, grid_q _⟩
    · exact ⟨(h.grid v).size_grid, (h.grid v).pnl_grid⟩
    · exact le_of_eq_of_le abs_zero hV
    · exact h.bounded v
  · have hsum : totalEquity (markedState s p) P = totalEquity s P +
        ((doomed s p.price).map fun x =>
          (liquidatedPos p.price (markPosition p.price x.2)).equity P - x.2.equity P).sum := by
      have hsweep := liquidationSweep_sum hmarked p.price fun p => p.equity P
      rw [doomed_markToMarket, List.map_map] at hsweep
      refine hsweep.trans (congrArg (· + _) ?_)
      exact OrdMap.sumValues_mapValues _ _ _
    rw [hsum, add_sub_cancel_left, takenAt, ← List.sum_map_add]
    have hlen : (liquidationsOf s p).length = (doomed s p.price).length := by
      rw [liquidationsOf_eq, List.length_map]
    rw [hlen, mul_comm]
    refine abs_sum_le fun x hx => ?_
    have hstored := (s.positions.mem_entries_iff x.1 x.2).mp (List.mem_filter.mp hx).1
    have hx2 : s.pos x.1 = x.2 := by
      unfold EngineState.pos
      rw [hstored]
      rfl
    exact liquidatedPos_equity (p := markPosition p.price x.2)
      (hx2 ▸ (h.grid x.1).pnl_grid) p.price P

/-! Runs -/

/-- The quantity that the outputs say was traded. -/
def volume (outs : List DraftOutput) : ℚ := ((trades outs).map TradeExecuted.quantity).sum

/-- What an event takes over, at `P`. -/
def valueTaken (s : EngineState) (e : EngineInputEvent) (P : ℚ) : ℚ :=
  match e.payload with
  | .indexPriceUpdated p =>
    if (p.observerSeq : ℤ) ≤ s.lastObserverSeq then 0 else takenAt s p.price P
  | _ => 0

/-- What the applied events of a run take over, at `P`: of every liquidated position its
size, at the difference of `P` to the mark price that liquidates it. -/
def takenOver (P : ℚ) (s : EngineState) : List (EngineInputEvent × StreamId) → ℚ
  | [] => 0
  | x :: xs =>
    (if alreadyApplied s x.1 then 0 else valueTaken s x.1 P) +
      takenOver P (process s x.1 x.2).1 xs

/-- Of every trade two roundings for each leg, while no size leaves the bound `W`, and of
every liquidation one. -/
def roundings (W : ℚ) (outs : List DraftOutput) : ℚ :=
  halfStep * (2 * (trades outs).length * (1 + W) + (liquidated outs).length)

/-- From `s` to `t` with `taken` taken over: the equity of everybody drifts by the
roundings of what the outputs report, and the sizes grow by no more than the volume. -/
structure Drift (P V W : ℚ) (s t : EngineState) (taken : ℚ) (outs : List DraftOutput) : Prop where
  records : RecordsWithin (V + volume outs) t
  equity : |totalEquity t P - totalEquity s P + taken| ≤ roundings W outs

section Drift

variable {P V W : ℚ} {s t u : EngineState} {x y : ℚ} {outs more : List DraftOutput}

theorem liquidated_append (outs more : List DraftOutput) :
    liquidated (outs ++ more) = liquidated outs ++ liquidated more := List.filterMap_append

theorem volume_append (outs more : List DraftOutput) :
    volume (outs ++ more) = volume outs + volume more := by
  unfold volume
  rw [trades_append, List.map_append, List.sum_append]

theorem roundings_append (W : ℚ) (outs more : List DraftOutput) :
    roundings W (outs ++ more) = roundings W outs + roundings W more := by
  unfold roundings
  rw [trades_append, liquidated_append, List.length_append, List.length_append]
  push_cast
  ring

theorem volume_of_quiet (h : trades outs = []) : volume outs = 0 := by
  unfold volume
  rw [h]
  rfl

theorem roundings_of_quiet (h : trades outs = []) :
    roundings W outs = halfStep * (liquidated outs).length := by
  unfold roundings
  rw [h, List.length_nil, Nat.cast_zero, mul_zero, zero_mul, zero_add]

theorem Drift.trans (h : Drift P V W s t x outs) (h' : Drift P (V + volume outs) W t u y more) :
    Drift P V W s u (x + y) (outs ++ more) := by
  refine ⟨?_, ?_⟩
  · rw [volume_append, ← add_assoc]
    exact h'.records
  · rw [roundings_append]
    have hsplit : totalEquity u P - totalEquity s P + (x + y) =
        (totalEquity t P - totalEquity s P + x) + (totalEquity u P - totalEquity t P + y) := by ring
    rw [hsplit]
    exact (abs_add_le _ _).trans (add_le_add h.equity h'.equity)

/-- What touches no position. -/
theorem Drift.still (h : RecordsWithin V s) (hpos : ∀ v, t.pos v = s.pos v)
    (htrades : trades outs = []) : Drift P V W s t 0 outs := by
  refine ⟨?_, ?_⟩
  · rw [volume_of_quiet htrades, add_zero]
    exact h.congr hpos
  · rw [totalEquity_congr hpos, sub_self, add_zero, abs_zero, roundings_of_quiet htrades]
    exact mul_nonneg halfStep_nonneg (Nat.cast_nonneg _)

/-- What comes after may touch records, but no position. -/
theorem Drift.congr (h : Drift P V W s t x outs) (hpos : ∀ v, u.pos v = t.pos v) :
    Drift P V W s u x outs :=
  ⟨h.records.congr hpos, by
    rw [totalEquity_congr hpos]
    exact h.equity⟩

end Drift

section Events

variable {s : EngineState} {e : EngineInputEvent} {V W : ℚ}

theorem accepted_volume {o : PlaceOrder} : volume (placeAccepted e.toEnvelopeMeta o
    (lock s o.userId o.margin).1).2 = traded (fillsOf s o) := by
  unfold volume traded
  rw [placeAccepted_trades, matched_trades, map_numbered (k := Prod.snd) fun _ _ => rfl]

theorem accepted_trade_count {o : PlaceOrder} : (trades (placeAccepted e.toEnvelopeMeta o
    (lock s o.userId o.margin).1).2).length = (fillsOf s o).length := by
  rw [placeAccepted_trades, matched_trades, List.length_mapIdx]

theorem dispatch_value (he : QuantityOnGrid e) (hi : InterestOK s) (h : RecordsWithin V s)
    (hV : 0 ≤ V) (hnew : ¬ alreadyApplied s e = true) (hW : V + volume (dispatch s e).2 ≤ W)
    (P : ℚ) : Drift P V W s (dispatch s e).1 (valueTaken s e P) (dispatch s e).2 := by
  by_cases hacc : ∃ o, Accepted s e o
  · obtain ⟨o, hacc⟩ := hacc
    have hnone : valueTaken s e P = 0 := by
      unfold valueTaken
      rw [hacc.payload]
    rw [hacc.dispatch_eq] at hW ⊢
    rw [accepted_volume] at hW
    obtain ⟨hrecords, hequity⟩ := placed_value h hi e.toEnvelopeMeta (he.2 o hacc.payload) hW P
    refine Drift.congr (t := placedState s e.toEnvelopeMeta o) ⟨?_, ?_⟩
      (placeAccepted_same _ _ _).pos
    · rw [accepted_volume]
      exact hrecords
    · rw [hnone, add_zero]
      refine hequity.trans ?_
      unfold roundings
      rw [accepted_trade_count]
      have hliq : 0 ≤ halfStep * ((liquidated (placeAccepted e.toEnvelopeMeta o
          (lock s o.userId o.margin).1).2).length : ℚ) :=
        mul_nonneg halfStep_nonneg (Nat.cast_nonneg _)
      linarith
  · push Not at hacc
    have htrades := trades_of_quiet (dispatch_quiet hnew hacc)
    have heff := dispatch_effect s e he.1
    by_cases hprice : ∃ p, e.payload = .indexPriceUpdated p
    · obtain ⟨p, hp⟩ := hprice
      by_cases hseq : (p.observerSeq : ℤ) ≤ s.lastObserverSeq
      · have hnone : valueTaken s e P = 0 := by
          unfold valueTaken
          rw [hp]
          exact if_pos hseq
        rw [dispatch_stale hp hseq, hnone]
        exact .still h (fun _ => rfl) rfl
      · have htaken : valueTaken s e P = takenAt s p.price P := by
          unfold valueTaken
          rw [hp]
          exact if_neg hseq
        obtain ⟨hrecords, hequity⟩ := marked_value h hi.keys hV p P
        rw [dispatch_swept hp (not_le.mp hseq)] at htrades ⊢
        rw [htaken]
        refine Drift.congr (t := markedState s p) ⟨?_, ?_⟩ (foldl_drafted_same _ _).pos
        · rw [volume_of_quiet htrades, add_zero]
          exact hrecords
        · rw [roundings_of_quiet htrades, liquidated_drafts]
          exact hequity
    · push Not at hprice
      have hnone : valueTaken s e P = 0 := by
        unfold valueTaken
        cases hp : e.payload with
        | indexPriceUpdated p => exact absurd hp (hprice p)
        | _ => rfl
      rw [hnone]
      refine .still h (fun v => ?_) htrades
      by_cases hplace : ∃ o, e.payload = .orderPlace o
      · obtain ⟨o, hp⟩ := hplace
        rcases onPlaceOrder_cases s e.toEnvelopeMeta o with ⟨reason, hr⟩ | ⟨hr, hl, -⟩
        · unfold dispatch
          rw [hp]
          dsimp only
          rw [hr]
        · exact absurd ⟨hp, hnew, hr, hl⟩ (hacc o)
      · push Not at hplace
        exact effect_pos heff hplace hprice v

theorem process_volume_nonneg (hbook : BookOK s) (e : EngineInputEvent) (id : StreamId) :
    0 ≤ volume ((process s e id).2.map EngineOutputEvent.payload) := by
  by_cases hacc : ∃ o, Accepted s e o
  · obtain ⟨o, hacc⟩ := hacc
    rw [hacc.payloads, accepted_volume]
    exact traded_nonneg fun y hy => (fillsOf_bounds hbook hy).1
  · push Not at hacc
    exact (volume_of_quiet (trades_of_quiet (process_quiet hacc id))).ge

theorem process_value (he : QuantityOnGrid e) (hi : InterestOK s) (h : RecordsWithin V s)
    (hV : 0 ≤ V) (id : StreamId)
    (hW : V + volume ((process s e id).2.map EngineOutputEvent.payload) ≤ W) (P : ℚ) :
    Drift P V W s (process s e id).1 (if alreadyApplied s e then 0 else valueTaken s e P)
      ((process s e id).2.map EngineOutputEvent.payload) := by
  by_cases ha : alreadyApplied s e = true
  · rw [process_applied ha, if_pos ha]
    exact .still h (fun v => (sameCore_lastInputId s id).pos v) rfl
  · rw [process_payloads, reduce_of_new ha] at hW ⊢
    rw [if_neg ha]
    exact (dispatch_value he hi h hV ha hW P).congr (process_new ha id).pos

end Events

theorem run_volume_nonneg {s : EngineState} (hbook : BookOK s)
    {evs : List (EngineInputEvent × StreamId)} (hevs : RunOf engineInputEventSchema evs) :
    0 ≤ volume ((run s evs).2.map EngineOutputEvent.payload) := by
  induction evs generalizing s with
  | nil => exact le_rfl
  | cons x xs ih =>
    have hx := hevs x List.mem_cons_self
    rw [run_cons, List.map_append, volume_append]
    exact add_nonneg (process_volume_nonneg hbook x.1 x.2)
      (ih (bookOK_process hbook hx x.2) fun y hy => hevs y (List.mem_cons_of_mem _ hy))

/-- A run: the equity of everybody drifts by roundings, apart from what is taken over. -/
theorem run_value {s : EngineState} {V W : ℚ} (hi : InterestOK s) (h : RecordsWithin V s)
    (hV : 0 ≤ V) {evs : List (EngineInputEvent × StreamId)} (hevs : RunOf QuantityOnGrid evs)
    (hW : V + volume ((run s evs).2.map EngineOutputEvent.payload) ≤ W) (P : ℚ) :
    Drift P V W s (run s evs).1 (takenOver P s evs)
      ((run s evs).2.map EngineOutputEvent.payload) := by
  induction evs generalizing s V with
  | nil => exact .still h (fun _ => rfl) rfl
  | cons x xs ih =>
    have hx := hevs x List.mem_cons_self
    have hxs : RunOf QuantityOnGrid xs := fun y hy => hevs y (List.mem_cons_of_mem _ hy)
    have hi' := (process_size hx hi x.2).1
    have hfirst := process_volume_nonneg hi.book x.1 x.2
    have hrest := run_volume_nonneg hi'.book fun y hy => (hxs y hy).1
    rw [run_cons, List.map_append] at hW ⊢
    rw [volume_append, ← add_assoc] at hW
    have hone := process_value hx hi h hV x.2 (by linarith) P
    exact hone.trans (ih hi' hone.records (by linarith) hxs hW)

/-! Cash -/

/-- What the event pays in. -/
def cashOf (e : EngineInputEvent) : ℚ :=
  match e.payload with
  | .userCreated p => if p.openingBalance > 0 then q p.openingBalance else 0
  | .balanceDeposited p => q p.amount
  | _ => 0

/-- What the applied events of a run pay in. -/
def cashTotal (s : EngineState) : List (EngineInputEvent × StreamId) → ℚ
  | [] => 0
  | x :: xs =>
    (if alreadyApplied s x.1 then 0 else cashOf x.1) + cashTotal (process s x.1 x.2).1 xs

/-- The user the event pays in for. -/
def payee (e : EngineInputEvent) : Option String :=
  match e.payload with
  | .userCreated p => some p.userId
  | .balanceDeposited p => some p.userId
  | _ => none

/-- Over all users that are paid for, and any others, an event pays in what it pays in. -/
theorem sum_cashIn {K : Finset String} {e : EngineInputEvent} (hK : ∀ u ∈ payee e, u ∈ K) :
    ∑ u ∈ K, cashIn u e = cashOf e := by
  unfold cashIn cashOf
  unfold payee at hK
  cases hp : e.payload with
  | userCreated p =>
    rw [hp] at hK
    have hu := hK p.userId rfl
    simp only [ite_and]
    rw [Finset.sum_ite_eq, if_pos hu]
  | balanceDeposited p =>
    rw [hp] at hK
    rw [Finset.sum_ite_eq, if_pos (hK p.userId rfl)]
  | _ => exact Finset.sum_const_zero

theorem sum_cashPaidIn {K : Finset String} (s : EngineState)
    {evs : List (EngineInputEvent × StreamId)} (hK : ∀ x ∈ evs, ∀ u ∈ payee x.1, u ∈ K) :
    ∑ u ∈ K, cashPaidIn u s evs = cashTotal s evs := by
  induction evs generalizing s with
  | nil => exact Finset.sum_const_zero
  | cons x xs ih =>
    simp only [cashPaidIn, cashTotal]
    rw [Finset.sum_add_distrib, ih _ fun y hy => hK y (List.mem_cons_of_mem _ hy)]
    split_ifs
    · rw [Finset.sum_const_zero]
    · rw [sum_cashIn (hK x List.mem_cons_self)]

theorem total_bal (s : EngineState) (u : String) :
    ((s.balances.get? u).map Balance.total).getD 0 = (s.bal u).total := by
  unfold EngineState.bal
  cases s.balances.get? u <;> rfl

theorem realizedPnl_pos (s : EngineState) (u : String) :
    ((s.positions.get? u).map Position.realizedPnl).getD 0 = (s.pos u).realizedPnl := by
  unfold EngineState.pos
  cases s.positions.get? u <;> rfl

/-- What all users have in total is what was paid in and what the positions realized. -/
theorem totals_eq (market : MarketConfig) {evs : List (EngineInputEvent × StreamId)}
    (hevs : RunOf engineInputEventSchema evs) :
    let s := (run (createState market) evs).1
    s.balances.sumValues Balance.total =
      cashTotal (createState market) evs + s.positions.sumValues Position.realizedPnl := by
  intro s
  have hinit : AllAccounts (LedgerOK fun _ => 0) (createState market) := fun _ =>
    ⟨grid_zero, grid_zero, (zero_add 0).symm⟩
  have h := run_ledger hinit (keysOK_createState market) (bookOK_createState market) hevs
  set K := s.balances.keys.toFinset ∪ s.positions.keys.toFinset ∪
    (evs.filterMap fun x => payee x.1).toFinset with hKdef
  have hK : ∀ x ∈ evs, ∀ u ∈ payee x.1, u ∈ K := fun x hx u hu =>
    Finset.mem_union_right _ (List.mem_toFinset.mpr (List.mem_filterMap.mpr ⟨x, hx, hu⟩))
  rw [OrdMap.sumValues_eq_sum_of_subset Balance.total s.balances (K := K)
      (Finset.subset_union_left.trans Finset.subset_union_left),
    OrdMap.sumValues_eq_sum_of_subset Position.realizedPnl s.positions (K := K)
      (Finset.subset_union_right.trans Finset.subset_union_left), ← sum_cashPaidIn _ hK,
    ← Finset.sum_add_distrib]
  refine Finset.sum_congr rfl fun u _ => ?_
  rw [total_bal, realizedPnl_pos, (h u).total_eq, zero_add]

/-! The books -/

/-- What an open position is worth at `P`, over its entry price. -/
def openValue (P : ℚ) (p : Position) : ℚ := p.size * (P - p.entryPrice)

/-- What all users have, with their positions valued at `P`. -/
def totalValue (s : EngineState) (P : ℚ) : ℚ :=
  s.balances.sumValues Balance.total + s.positions.sumValues (openValue P)

theorem totalEquity_eq (s : EngineState) (P : ℚ) : totalEquity s P =
    s.positions.sumValues Position.realizedPnl + s.positions.sumValues (openValue P) := by
  unfold totalEquity OrdMap.sumValues
  rw [← List.sum_map_add]
  rfl

/-- After every run from the start, what all users have and what was taken over from them
is worth, at every price, what was paid in, up to two roundings for each leg of a trade and
one for each liquidation. Nobody gains what nobody else loses. -/
theorem value_conserved (market : MarketConfig) {evs : List (EngineInputEvent × StreamId)}
    (hevs : RunOf QuantityOnGrid evs) (P : ℚ) :
    let r := run (createState market) evs
    let outs := r.2.map EngineOutputEvent.payload
    |totalValue r.1 P + takenOver P (createState market) evs - cashTotal (createState market) evs| ≤
      halfStep * (2 * (trades outs).length * (1 + volume outs) + (liquidated outs).length) := by
  intro r outs
  have hrecords : RecordsWithin 0 (createState market) :=
    ⟨fun _ => ⟨grid_zero, grid_zero⟩, fun _ => abs_zero.le⟩
  have hdrift := (run_value (interestOK_createState market) hrecords le_rfl hevs
    (zero_add _).le P).equity
  have htotals := totals_eq market fun x hx => (hevs x hx).1
  have hstart : totalEquity (createState market) P = 0 := rfl
  rw [hstart, sub_zero, totalEquity_eq] at hdrift
  refine le_of_eq_of_le (congrArg _ ?_) hdrift
  unfold totalValue
  rw [htotals]
  ring

open Fixture in
/-- Two averaged entries, a flip and a liquidation, at prices and margins off the grid. -/
theorem value_conserved_flip :
    let evs := numbered [user "m" (1000000 / 3), user "t" 1000000,
      place "m" "a1" .Ask .LIMIT (100 / 3) 3 3 200, place "t" "b1" .Bid .LIMIT 100 1 1 100,
      place "t" "b2" .Bid .LIMIT (300 / 7) 7 3 250, place "m" "c1" .Ask .MARKET 0 2 3 200,
      evt none (.indexPriceUpdated ⟨"BTCUSDT", 5, 1, 0⟩)]
    let r := run (createState MARKET) evs
    let outs := r.2.map EngineOutputEvent.payload
    (trades outs).length = 3 ∧ (liquidated outs).length = 1 ∧
      |totalValue r.1 60 + takenOver 60 (createState MARKET) evs -
          cashTotal (createState MARKET) evs| ≤
        halfStep * (2 * (trades outs).length * (1 + volume outs) + (liquidated outs).length) :=
  ⟨by decide +kernel, by decide +kernel, value_conserved MARKET (by decide +kernel) 60⟩

end Engine

end Perps
