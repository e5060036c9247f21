import Perps.Domain.Reports

/-! The fills of an accepted order: the trades they draft, and the quantities
on the grid, where no fill loses anything to rounding. -/

namespace Perps

open Lib

namespace Engine

/-- The quantity that is traded. -/
def traded (fills : List (RestingOrder × ℚ)) : ℚ := (fills.map Prod.snd).sum

/-- The trade of the `i`-th fill, counted from zero. -/
def tradeOf (s : EngineState) (e : EnvelopeMeta) (o : PlaceOrder) (i : ℕ)
    (f : RestingOrder × ℚ) : TradeExecuted where
  tradeId := s!"{s.market.symbol}-{s.seq + i + 1}"
  symbol := s.market.symbol
  makerOrderId := f.1.orderId
  takerOrderId := o.orderId
  makerUserId := f.1.userId
  takerUserId := o.userId
  price := f.1.price
  quantity := f.2
  takerSide := o.side
  ts := e.ts

theorem grid_gt_iff {x : ℚ} (hx : Grid x) : x > 1e-9 ↔ 0 < x := by
  refine ⟨fun h => lt_trans (by norm_num) h, fun h => hx.lt_of_pos h⟩

theorem makerFillMargin_grid (x : RestingOrder) (f : ℚ) : Grid (makerFillMargin x f) := by
  unfold makerFillMargin
  split_ifs
  · exact grid_q _
  · exact grid_zero

theorem makerFillMargin_nonneg {x : RestingOrder} (hm : 0 ≤ x.margin) {f : ℚ} (hf : 0 ≤ f) :
    0 ≤ makerFillMargin x f := by
  unfold makerFillMargin
  split_ifs with h
  · exact q_nonneg (mul_nonneg (div_nonneg hf h.le) hm)
  · exact le_rfl

theorem takerFillMargin_nonneg {o : PlaceOrder} (ho : o.Valid) {f : ℚ} (hf : 0 ≤ f) :
    0 ≤ takerFillMargin o f :=
  q_nonneg (mul_nonneg hf (div_nonneg ho.2.2.2.2.2.le ho.2.2.1.le))

theorem leftover_grid (os : List RestingOrder) {r : ℚ} (hr : Grid r) : Grid (leftover os r) := by
  induction os generalizing r with
  | nil => exact hr
  | cons x xs ih =>
    rw [leftover]
    split_ifs
    · exact ih (grid_q _)
    · exact hr

/-- The orders of a queue that the quantity `r` uses up. -/
def usedUp : List RestingOrder → ℚ → List RestingOrder
  | [], _ => []
  | x :: xs, r => if x.remaining ≤ r then x :: usedUp xs (r - x.remaining) else []

theorem usedUp_subset (os : List RestingOrder) (r : ℚ) : usedUp os r ⊆ os := by
  induction os generalizing r with
  | nil => exact List.Subset.refl _
  | cons x xs ih =>
    rw [usedUp]
    split_ifs
    · exact List.cons_subset_cons x (ih _)
    · exact List.nil_subset _

/-- If what is used up is on the grid, so are the fills, and nothing is lost between them
and what is left. -/
theorem hits_exact {os : List RestingOrder} {r : ℚ} (hos : ∀ x ∈ usedUp os r, Grid x.remaining)
    (hr : Grid r) :
    (∀ f ∈ hits os r, Grid f.2) ∧ leftover os r = r - traded (hits os r) := by
  induction os generalizing r with
  | nil => simp [hits, leftover, traded]
  | cons x xs ih =>
    rw [hits, leftover]
    split_ifs with h
    · rw [usedUp] at hos
      by_cases hx : x.remaining ≤ r
      · rw [if_pos hx] at hos
        have hxg := hos x List.mem_cons_self
        obtain ⟨hgrid, hleft⟩ := ih (fun y hy => hos y (List.mem_cons_of_mem _ hy)) (hr.sub hxg)
        rw [min_eq_right hx, q_of_grid (hr.sub hxg)]
        refine ⟨fun f hf => ?_, ?_⟩
        · rcases List.mem_cons.mp hf with rfl | hf
          · exact hxg
          · exact hgrid f hf
        · rw [hleft]
          simp only [traded, List.map_cons, List.sum_cons]
          ring
      · -- the maker takes all that is left
        rw [min_eq_left (not_le.mp hx).le, sub_self, q_zero, hits_of_le (by norm_num),
          leftover_of_le (by norm_num)]
        refine ⟨fun f hf => ?_, ?_⟩
        · rw [List.mem_singleton.mp hf]
          exact hr
        · simp [traded]
    · exact ⟨fun f hf => absurd hf List.not_mem_nil, by simp [traded]⟩

theorem hits_grid {os : List RestingOrder} (hos : ∀ x ∈ os, Grid x.remaining) {r : ℚ}
    (hr : Grid r) : ∀ f ∈ hits os r, Grid f.2 :=
  (hits_exact (fun x hx => hos x (usedUp_subset os r hx)) hr).1

/-- A fill takes something, and no more than there is. -/
theorem hits_bounds {os : List RestingOrder} (hlive : ∀ x ∈ os, 1e-9 < x.remaining) {r : ℚ}
    {f : RestingOrder × ℚ} (hf : f ∈ hits os r) : 0 < f.2 ∧ f.2 ≤ f.1.remaining := by
  induction os generalizing r with
  | nil => cases hf
  | cons x xs ih =>
    rw [hits] at hf
    split_ifs at hf with hr
    · rcases List.mem_cons.mp hf with rfl | hf
      · have hx := hlive x List.mem_cons_self
        exact ⟨lt_min (by linarith) (by linarith), min_le_right _ _⟩
      · exact ih (fun y hy => hlive y (List.mem_cons_of_mem _ hy)) hf
    · cases hf

theorem leftover_nonneg (os : List RestingOrder) {r : ℚ} (hr : 0 ≤ r) : 0 ≤ leftover os r := by
  induction os generalizing r with
  | nil => exact hr
  | cons x xs ih =>
    rw [leftover]
    split_ifs
    · exact ih (q_nonneg (sub_nonneg.mpr (min_le_left _ _)))
    · exact hr

/-- On the grid nothing is lost between the fills and what is left. -/
theorem leftover_eq {os : List RestingOrder} (hos : ∀ x ∈ os, Grid x.remaining) {r : ℚ}
    (hr : Grid r) : leftover os r = r - traded (hits os r) :=
  (hits_exact (fun x hx => hos x (usedUp_subset os r hx)) hr).2

theorem hits_sublist (os : List RestingOrder) (r : ℚ) : ((hits os r).map Prod.fst).Sublist os := by
  induction os generalizing r with
  | nil => exact .slnil
  | cons x xs ih =>
    rw [hits]
    split_ifs
    · exact (ih _).cons_cons x
    · exact List.nil_sublist _

theorem hits_mem {os : List RestingOrder} {r : ℚ} {x : RestingOrder}
    (hx : x ∈ (hits os r).map Prod.fst) : x ∈ os := (hits_sublist os r).subset hx

theorem crossing_subset {o : PlaceOrder} {levels : List PriceLevel} {x : RestingOrder}
    (hx : x ∈ crossing o levels) : x ∈ ordersOf levels := by
  obtain ⟨l, hl, hx⟩ := List.mem_flatMap.mp hx
  exact mem_ordersOf.mpr ⟨l, List.takeWhile_subset _ hl, hx⟩

theorem filter_orders {side : Side} {l : PriceLevel} (hl : LevelOK side l) (p : ℚ → Bool) :
    l.orders.filter (fun x => p x.price) = if p l.price then l.orders else [] := by
  have hprice : ∀ x ∈ l.orders, p x.price = p l.price := fun x hx => by
    rw [(hl.orders x hx).price_eq]
  rw [List.filter_congr hprice]
  cases p l.price <;> simp

/-- A worse price than one that does not cross does not cross. -/
theorem crosses_of_worse {o : PlaceOrder} {a b : ℚ} (h : betterFirst (maker_side o.side) a b)
    (hb : crosses o b = true) : crosses o a = true := by
  unfold crosses at hb ⊢
  cases ht : o.orderType
  · rw [ht] at hb
    cases hs : o.side <;>
      simp only [hs, maker_side, betterFirst, decide_eq_true_eq] at hb h ⊢ <;> linarith
  · rfl

/-- On a sorted side the leading levels that cross are all that do. -/
theorem crossing_eq_filter {o : PlaceOrder} {levels : List PriceLevel}
    (h : SideOK (maker_side o.side) levels) :
    crossing o levels = (ordersOf levels).filter fun x => crosses o x.price := by
  induction levels with
  | nil => rfl
  | cons l ls ih =>
    have hsorted := (List.pairwise_cons.mp h.sorted).1
    rw [crossing_cons, ordersOf_cons, List.filter_append,
      filter_orders (h.levels l List.mem_cons_self)]
    split_ifs with hc
    · rw [ih h.tail]
    · symm
      rw [List.nil_append, List.filter_eq_nil_iff]
      intro x hx hcx
      obtain ⟨m, hm, hx⟩ := mem_ordersOf.mp hx
      rw [((h.levels m (List.mem_cons_of_mem _ hm)).orders x hx).price_eq] at hcx
      exact hc (crosses_of_worse (hsorted m hm) hcx)

theorem settleFill_outs (e : EnvelopeMeta) (o : PlaceOrder) (m : Matching) (x : RestingOrder) :
    (settleFill e o m x).outs =
      m.outs ++ [.tradeExecuted (tradeOf m.state e o 0 (x, min m.remaining x.remaining))] := by
  simp only [settleFill, nextSeq, applyFill_eq]
  rfl

/-- The drafts of the fills, numbered from the state's sequence number on. -/
theorem settleAll_trades (e : EnvelopeMeta) (o : PlaceOrder) (m : Matching) (os : List RestingOrder) :
    trades (settleAll e o m ((hits os m.remaining).map Prod.fst)).outs =
      trades m.outs ++ (hits os m.remaining).mapIdx (tradeOf m.state e o) := by
  induction os generalizing m with
  | nil => exact (List.append_nil _).symm
  | cons x xs ih =>
    rw [hits]
    split_ifs with h
    · have ih := ih (settleFill e o m x)
      rw [settleFill_remaining] at ih
      refine ih.trans ?_
      have hhead : trades (settleFill e o m x).outs =
          trades m.outs ++ [tradeOf m.state e o 0 (x, min m.remaining x.remaining)] := by
        rw [settleFill_outs, trades_append]
        rfl
      have hshift : tradeOf (settleFill e o m x).state e o = fun i => tradeOf m.state e o (i + 1) := by
        funext i f
        simp only [tradeOf, settleFill_seq, settleFill_market, Nat.add_assoc, Nat.add_comm 1 i]
      rw [hhead, hshift, List.append_assoc, List.mapIdx_cons, List.singleton_append]
    · exact (List.append_nil _).symm

theorem matched_trades (s : EngineState) (e : EnvelopeMeta) (o : PlaceOrder) :
    trades (matched s e o).outs = (fillsOf s o).mapIdx (tradeOf s e o) := by
  have hlock : tradeOf (lock s o.userId o.margin).1 e o = tradeOf s e o := by
    funext i f
    simp only [tradeOf, lock_seq, lock_market]
  rw [(matched_spec s e o).trades]
  refine (settleAll_trades e o (matchStart (lock s o.userId o.margin).1 o) _).trans ?_
  rw [← hlock]
  rfl

theorem Accepted.newTrades {s : EngineState} {e : EngineInputEvent} {o : PlaceOrder}
    (hacc : Accepted s e o) (id : StreamId) :
    trades ((process s e id).2.map EngineOutputEvent.payload) =
      (fillsOf s o).mapIdx (tradeOf s e.toEnvelopeMeta o) := by
  rw [hacc.payloads, placeAccepted_trades, matched_trades]

/-- What the trades say about their fills, whatever their numbers. -/
theorem map_numbered {α β : Type} {F : List α} {g : ℕ → α → TradeExecuted} {h : TradeExecuted → β}
    {k : α → β} (hk : ∀ i x, h (g i x) = k x) : (F.mapIdx g).map h = F.map k := by
  induction F generalizing g with
  | nil => rfl
  | cons x xs ih =>
    rw [List.mapIdx_cons, List.map_cons, List.map_cons, hk, ih fun i => hk (i + 1)]

theorem matched_grid (s : EngineState) (e : EnvelopeMeta) (o : PlaceOrder) (hQ : Grid o.quantity) :
    Grid (matched s e o).remaining := by
  rw [matched_remaining]
  exact leftover_grid _ hQ

theorem settleAll_keys (e : EnvelopeMeta) (o : PlaceOrder) (m : Matching) (os : List RestingOrder)
    (id : String) : id ∈ (settleAll e o m os).makerTouched.keys ↔
      id ∈ m.makerTouched.keys ∨ id ∈ os.map RestingOrder.orderId := by
  induction os generalizing m with
  | nil => simp [settleAll]
  | cons x xs ih =>
    have hfill : id ∈ (settleFill e o m x).makerTouched.keys ↔
        id ∈ m.makerTouched.keys ∨ id = x.orderId := OrdMap.mem_keys_set _ _ _ _
    refine (ih (settleFill e o m x)).trans ?_
    rw [hfill, List.map_cons, List.mem_cons, or_assoc]

/-- The makers that are touched are those that are reached. -/
theorem matched_keys (s : EngineState) (e : EnvelopeMeta) (o : PlaceOrder) (id : String) :
    id ∈ (matched s e o).makerTouched.keys ↔ id ∈ (reached s o).map RestingOrder.orderId := by
  rw [(matched_spec s e o).makerTouched]
  refine (settleAll_keys e o (matchStart (lock s o.userId o.margin).1 o) _ id).trans ?_
  simp [matchStart, OrdMap.keys, OrdMap.empty, reached]

/-- The entry of `makerTouched` that one fill leaves. -/
def recordedOf (f : RestingOrder × ℚ) : String × MakerTouched :=
  (f.1.orderId, { restingQty := f.1.quantity, filled := q f.2, userId := f.1.userId })

/-- The same for a fill on the grid. -/
def touchedOf (f : RestingOrder × ℚ) : String × MakerTouched :=
  (f.1.orderId, { restingQty := f.1.quantity, filled := f.2, userId := f.1.userId })

theorem settleFill_makerTouched (e : EnvelopeMeta) (o : PlaceOrder) {m : Matching}
    {x : RestingOrder} (hx : x.orderId ∉ m.makerTouched.keys) :
    (settleFill e o m x).makerTouched.entries =
      m.makerTouched.entries ++ [recordedOf (x, min m.remaining x.remaining)] := by
  have hnone : m.makerTouched.get? x.orderId = none := OrdMap.getEntry_of_notMem hx
  have hset : (settleFill e o m x).makerTouched = m.makerTouched.set x.orderId
      { restingQty := x.quantity, filled := q (0 + min m.remaining x.remaining),
        userId := x.userId } := by
    rw [settleFill_touched, hnone]
    rfl
  rw [hset, zero_add]
  exact OrdMap.setEntry_of_notMem hx _

/-- Makers with distinct ids are touched once each, in the order of their fills. -/
theorem settleAll_makerTouched (e : EnvelopeMeta) (o : PlaceOrder) {m : Matching}
    {os : List RestingOrder}
    (hids : (m.makerTouched.keys ++ os.map RestingOrder.orderId).Nodup) :
    (settleAll e o m ((hits os m.remaining).map Prod.fst)).makerTouched.entries =
      m.makerTouched.entries ++ (hits os m.remaining).map recordedOf := by
  induction os generalizing m with
  | nil => exact (List.append_nil _).symm
  | cons x xs ih =>
    rw [hits]
    split_ifs with h
    · have hx : x.orderId ∉ m.makerTouched.keys := fun hm =>
        (List.nodup_append'.mp hids).2.2 hm List.mem_cons_self
      have hhead := settleFill_makerTouched e o hx
      have hkeys : (settleFill e o m x).makerTouched.keys = m.makerTouched.keys ++ [x.orderId] := by
        rw [OrdMap.keys, hhead, List.map_append]
        rfl
      have ih := ih (m := settleFill e o m x) (by rw [hkeys, List.append_assoc]; exact hids)
      rw [settleFill_remaining, hhead, List.append_assoc] at ih
      exact ih
    · exact (List.append_nil _).symm

theorem matched_recorded {s : EngineState} (e : EnvelopeMeta) {o : PlaceOrder}
    (hids : ((crossing o (levelsFor s (maker_side o.side))).map RestingOrder.orderId).Nodup) :
    (matched s e o).makerTouched.entries = (fillsOf s o).map recordedOf := by
  rw [(matched_spec s e o).makerTouched]
  exact settleAll_makerTouched e o (m := matchStart (lock s o.userId o.margin).1 o) hids

theorem matched_makerTouched {s : EngineState} (e : EnvelopeMeta) {o : PlaceOrder}
    (hgrid : ∀ x ∈ ordersOf (levelsFor s (maker_side o.side)), Grid x.remaining)
    (hids : ((crossing o (levelsFor s (maker_side o.side))).map RestingOrder.orderId).Nodup)
    (hQ : Grid o.quantity) :
    (matched s e o).makerTouched.entries = (fillsOf s o).map touchedOf := by
  rw [matched_recorded e hids]
  refine List.map_congr_left fun f hf => ?_
  rw [recordedOf, q_of_grid (hits_grid (fun x hx => hgrid x (crossing_subset hx)) hQ f hf)]
  rfl

/-! The book around the fills -/

theorem afterFills_append (xs ys : List RestingOrder) (r : ℚ) :
    afterFills (xs ++ ys) r = afterFills xs r ++ afterFills ys (leftover xs r) := by
  induction xs generalizing r with
  | nil => rfl
  | cons x xs ih =>
    rw [List.cons_append, afterFills, afterFills, leftover]
    split_ifs with h
    · rw [ih]
      unfold shiftFilled
      split_ifs
      · rfl
      · rw [List.cons_append]
    · rw [afterFills_of_le h, List.cons_append]

section Around

variable (o : PlaceOrder)

/-- The levels that do not cross, and those behind them. -/
def beyond (levels : List PriceLevel) : List RestingOrder :=
  ordersOf (levels.dropWhile fun l => crosses o l.price)

theorem ordersOf_eq (levels : List PriceLevel) :
    ordersOf levels = crossing o levels ++ beyond o levels := by
  unfold crossing beyond ordersOf
  rw [← List.flatMap_append, List.takeWhile_append_dropWhile]

theorem ordersOf_sweepLevels (levels : List PriceLevel) (r : ℚ) :
    ordersOf (sweepLevels o levels r) = afterFills (crossing o levels) r ++ beyond o levels := by
  induction levels generalizing r with
  | nil => rfl
  | cons l ls ih =>
    have hb : crosses o l.price = true → beyond o (l :: ls) = beyond o ls := fun hc => by
      simp only [beyond, List.dropWhile_cons, hc, if_true]
    rw [sweepLevels]
    by_cases hc : r > 1e-9 ∧ crosses o l.price = true
    · rw [if_pos hc, crossing_cons, if_pos hc.2, afterFills_append, hb hc.2]
      split_ifs with he
      · rw [ih, he, List.nil_append]
      · rw [afterFills_of_le (leftover_of_afterFills_ne_nil he), ordersOf_cons, ordersOf_eq o ls,
          List.append_assoc]
    · rw [if_neg hc, ordersOf_eq o (l :: ls)]
      by_cases hx : crosses o l.price = true
      · rw [afterFills_of_le fun hr => hc ⟨hr, hx⟩]
      · rw [crossing_cons, if_neg hx]
        rfl

end Around

end Engine

end Perps
