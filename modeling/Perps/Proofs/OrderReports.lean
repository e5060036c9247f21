import Perps.Proofs.PriceTime

/-! The reports on an order over a whole run. A maker's report is made from its
fills against one taker and from the quantity that came to rest, so it is right
exactly for a maker that has not traded before. -/

namespace Perps

open Lib

namespace Engine

/-- The quantity of the trades that name the order. -/
def tradedQty (orderId : String) (ts : List TradeExecuted) : ℚ :=
  ((ts.filter fun t => t.makerOrderId = orderId ∨ t.takerOrderId = orderId).map
    TradeExecuted.quantity).sum

def latestReport (orderId : String) (rs : List OrderAccepted) : Option OrderAccepted :=
  (rs.filter fun r => r.orderId = orderId).getLast?

/-- The latest report on the order agrees with its trades. -/
def ReportedRight (outs : List DraftOutput) (p : PlaceOrder) : Prop :=
  ∃ r ∈ latestReport p.orderId (reports outs),
    r.filledQuantity = tradedQty p.orderId (trades outs) ∧
    r.remainingQuantity = p.quantity - tradedQty p.orderId (trades outs) ∧
    (r.status = .FILLED ↔ tradedQty p.orderId (trades outs) = p.quantity)

instance (outs : List DraftOutput) : DecidablePred (ReportedRight outs) := fun p =>
  inferInstanceAs (Decidable (∃ r ∈ latestReport p.orderId (reports outs), _))

/-- The accepted orders of a run. -/
def acceptedOrders (s : EngineState) : List (EngineInputEvent × StreamId) → List PlaceOrder
  | [] => []
  | x :: xs => (acceptedOrder s x.1).toList ++ acceptedOrders (process s x.1 x.2).1 xs

/-- The order ids of the `order.place` commands. -/
def placedIds (evs : List (EngineInputEvent × StreamId)) : List String :=
  evs.filterMap fun x =>
    match x.1.payload with
    | .orderPlace o => some o.orderId
    | _ => none

theorem acceptedOrders_snoc (s : EngineState) (xs : List (EngineInputEvent × StreamId))
    (x : EngineInputEvent × StreamId) : acceptedOrders s (xs ++ [x]) =
      acceptedOrders s xs ++ (acceptedOrder (run s xs).1 x.1).toList := by
  induction xs generalizing s with
  | nil => simp [acceptedOrders, run]
  | cons y ys ih =>
    rw [List.cons_append, acceptedOrders, acceptedOrders, ih, List.append_assoc]
    rfl

theorem acceptedOrders_ids (s : EngineState) (evs : List (EngineInputEvent × StreamId)) :
    ((acceptedOrders s evs).map PlaceOrder.orderId).Sublist (placedIds evs) := by
  induction evs generalizing s with
  | nil => exact .slnil
  | cons x xs ih =>
    have ih := ih (process s x.1 x.2).1
    rw [acceptedOrders, List.map_append, placedIds, List.filterMap_cons]
    cases h : acceptedOrder s x.1 with
    | none =>
      split
      · exact ih
      · exact ih.cons _
    | some o =>
      rw [(acceptedOrder_eq_some.mp h).payload]
      exact ih.cons_cons _

/-! Counting trades and finding reports -/

theorem tradedQty_append (id : String) (ts us : List TradeExecuted) :
    tradedQty id (ts ++ us) = tradedQty id ts + tradedQty id us := by
  simp [tradedQty]

theorem tradedQty_of_unnamed {id : String} {ts : List TradeExecuted}
    (h : ∀ t ∈ ts, t.makerOrderId ≠ id ∧ t.takerOrderId ≠ id) : tradedQty id ts = 0 := by
  have hnil : ts.filter (fun t => t.makerOrderId = id ∨ t.takerOrderId = id) = [] := by
    rw [List.filter_eq_nil_iff]
    intro t ht
    simpa using h t ht
  rw [tradedQty, hnil]
  rfl

/-- Numbering the trades does not change what they say about an order. -/
theorem tradedQty_mapIdx (id taker : String) (F : List (RestingOrder × ℚ))
    {g : ℕ → RestingOrder × ℚ → TradeExecuted} (hm : ∀ i f, (g i f).makerOrderId = f.1.orderId)
    (ht : ∀ i f, (g i f).takerOrderId = taker) (hq : ∀ i f, (g i f).quantity = f.2) :
    tradedQty id (F.mapIdx g) =
      ((F.filter fun f => f.1.orderId = id ∨ taker = id).map Prod.snd).sum := by
  induction F generalizing g with
  | nil => rfl
  | cons f F ih =>
    have ih := ih (g := fun i => g (i + 1)) (fun i => hm (i + 1)) (fun i => ht (i + 1))
      (fun i => hq (i + 1))
    rw [tradedQty] at ih ⊢
    rw [List.mapIdx_cons, List.filter_cons, List.filter_cons, hm, ht]
    split_ifs
    · rw [List.map_cons, List.map_cons, List.sum_cons, List.sum_cons, hq, ih]
    · exact ih

theorem filter_of_mem {F : List (RestingOrder × ℚ)} (hF : (F.map fun f => f.1.orderId).Nodup)
    {f : RestingOrder × ℚ} (hf : f ∈ F) : F.filter (fun g => g.1.orderId = f.1.orderId) = [f] := by
  induction F with
  | nil => cases hf
  | cons g F ih =>
    rw [List.map_cons, List.nodup_cons] at hF
    rw [List.filter_cons]
    rcases List.mem_cons.mp hf with rfl | hf
    · have hnil : F.filter (fun g => g.1.orderId = f.1.orderId) = [] := by
        rw [List.filter_eq_nil_iff]
        intro g hg hid
        exact hF.1 (List.mem_map.mpr ⟨g, hg, of_decide_eq_true hid⟩)
      rw [if_pos (decide_eq_true rfl), hnil]
    · have hne : ¬ g.1.orderId = f.1.orderId := fun hid =>
        hF.1 (List.mem_map.mpr ⟨f, hf, hid.symm⟩)
      rw [if_neg (by simpa using hne)]
      exact ih hF.2 hf

theorem filter_of_notMem {F : List (RestingOrder × ℚ)} {id : String}
    (h : id ∉ F.map fun f => f.1.orderId) : F.filter (fun g => g.1.orderId = id) = [] := by
  rw [List.filter_eq_nil_iff]
  intro g hg hid
  exact h (List.mem_map.mpr ⟨g, hg, of_decide_eq_true hid⟩)

section Placed

variable (s : EngineState) (e : EnvelopeMeta) (o : PlaceOrder)

theorem tradedQty_taker :
    tradedQty o.orderId ((fillsOf s o).mapIdx (tradeOf s e o)) = traded (fillsOf s o) := by
  rw [tradedQty_mapIdx o.orderId o.orderId _ (fun _ _ => rfl) (fun _ _ => rfl) fun _ _ => rfl]
  simp [traded]

theorem tradedQty_fills {id : String} (h : id ≠ o.orderId) :
    tradedQty id ((fillsOf s o).mapIdx (tradeOf s e o)) =
      (((fillsOf s o).filter fun f => f.1.orderId = id).map Prod.snd).sum := by
  rw [tradedQty_mapIdx id o.orderId _ (fun _ _ => rfl) (fun _ _ => rfl) fun _ _ => rfl]
  simp [h.symm]

end Placed

theorem latestReport_snoc (rs : List OrderAccepted) (r : OrderAccepted) :
    latestReport r.orderId (rs ++ [r]) = some r := by
  simp [latestReport]

theorem latestReport_of_unnamed {id : String} (rs : List OrderAccepted) {new : List OrderAccepted}
    (h : ∀ r ∈ new, r.orderId ≠ id) : latestReport id (rs ++ new) = latestReport id rs := by
  have hnil : new.filter (fun r => r.orderId = id) = [] := by
    rw [List.filter_eq_nil_iff]
    intro r hr
    simpa using h r hr
  rw [latestReport, List.filter_append, hnil, List.append_nil]
  rfl

/-- The report on the maker of a fill. -/
def fillReport (f : RestingOrder × ℚ) : OrderAccepted := makerReported (touchedOf f)

theorem latestReport_fill {F : List (RestingOrder × ℚ)} (hF : (F.map fun f => f.1.orderId).Nodup)
    {f : RestingOrder × ℚ} (hf : f ∈ F) (rs : List OrderAccepted) {last : OrderAccepted}
    (hlast : last.orderId ≠ f.1.orderId) :
    latestReport f.1.orderId (rs ++ (F.map fillReport ++ [last])) = some (fillReport f) := by
  have hmap : (F.map fillReport).filter (fun r => r.orderId = f.1.orderId) = [fillReport f] := by
    rw [List.filter_map, ← List.map_singleton, ← filter_of_mem hF hf]
    rfl
  rw [← List.append_assoc, latestReport_of_unnamed _ (by simpa using hlast), latestReport,
    List.filter_append, hmap]
  simp

/-! What is known about the orders of a run -/

/-- Every resting order is one that was accepted, less what it has traded. -/
structure History (s : EngineState) (orders : List PlaceOrder) (outs : List DraftOutput) :
    Prop where
  book : BookOK s
  distinct : (s.resting.map RestingOrder.orderId).Nodup
  grid : ∀ x ∈ s.resting, Grid x.remaining
  accepted : ∀ x ∈ s.resting, ∃ p ∈ orders, p.orderId = x.orderId ∧ x.remaining ≤ x.quantity ∧
    x.quantity ≤ p.quantity ∧ tradedQty x.orderId (trades outs) = p.quantity - x.remaining
  named : ∀ t ∈ trades outs, t.makerOrderId ∈ orders.map PlaceOrder.orderId ∧
    t.takerOrderId ∈ orders.map PlaceOrder.orderId
  once : (orders.map PlaceOrder.orderId).Nodup

theorem history_createState (market : MarketConfig) : History (createState market) [] [] where
  book := bookOK_createState market
  distinct := .nil
  grid := by simp [createState, EngineState.resting]
  accepted := by simp [createState, EngineState.resting]
  named := by simp [trades]
  once := .nil

/-- An event that accepts no order leaves what is known as it is. -/
theorem History.quiet {s : EngineState} {orders : List PlaceOrder} {outs : List DraftOutput}
    (h : History s orders outs) {e : EngineInputEvent} (he : engineInputEventSchema e)
    (hnot : ∀ o, ¬ Accepted s e o) (id : StreamId) :
    History (process s e id).1 orders
      (outs ++ (process s e id).2.map EngineOutputEvent.payload) := by
  obtain ⟨gone, hperm⟩ := process_resting he hnot id
  have hquiet := process_quiet hnot id
  have hsub : ∀ x ∈ (process s e id).1.resting, x ∈ s.resting := fun x hx =>
    hperm.mem_iff.mpr (List.mem_append_right _ hx)
  have htrades : trades (outs ++ (process s e id).2.map EngineOutputEvent.payload) = trades outs := by
    rw [trades_append, trades_of_quiet hquiet, List.append_nil]
  refine ⟨?_, ?_, fun x hx => h.grid x (hsub x hx), fun x hx => ?_, ?_, h.once⟩
  · exact bookOK_process h.book he id
  · have hids := (hperm.map RestingOrder.orderId).nodup_iff.mp h.distinct
    rw [List.map_append] at hids
    exact hids.of_append_right
  · rw [htrades]
    exact h.accepted x (hsub x hx)
  · rw [htrades]
    exact h.named

/-! An accepted order -/

theorem leftOf_cases {F : List (RestingOrder × ℚ)} {x y : RestingOrder}
    (h : leftOf F y = some x) : (∀ f ∈ F, f.1 ≠ y) ∧ x = y ∨
      ∃ f ∈ F, f.1 = y ∧ x = { y with
        remaining := y.remaining - f.2
        margin := q (y.margin - makerFillMargin y f.2) } := by
  unfold leftOf at h
  cases hfind : F.find? (fun f => f.1 = y) with
  | none =>
    rw [hfind] at h
    refine Or.inl ⟨fun f hf hfy => ?_, (Option.some.inj h).symm⟩
    exact List.find?_eq_none.mp hfind f hf (decide_eq_true hfy)
  | some f =>
    rw [hfind] at h
    dsimp only at h
    split_ifs at h
    have hfy := List.find?_some hfind
    exact Or.inr ⟨f, List.mem_of_find?_eq_some hfind, of_decide_eq_true hfy,
      (Option.some.inj h).symm⟩

section Accepted

variable {s : EngineState} {orders : List PlaceOrder} {outs : List DraftOutput}
  (h : History s orders outs) {e : EngineInputEvent} (he : QuantityOnGrid e) {o : PlaceOrder}
  (hacc : Accepted s e o)

include h in
theorem History.maker_grid (side : Side) : ∀ x ∈ ordersOf (levelsFor s side), Grid x.remaining :=
  fun x hx => h.grid x (BookOK.resting_of_side s hx)

include h in
theorem History.ids_nodup (side : Side) :
    ((ordersOf (levelsFor s side) ++ ordersOf (levelsFor s (maker_side side))).map
      RestingOrder.orderId).Nodup :=
  ((BookOK.resting_perm s side).map _).nodup_iff.mp h.distinct

include h he hacc in
theorem History.reached_sublist :
    (reached s o).Sublist (ordersOf (levelsFor s (maker_side o.side))) := by
  rw [reached, fillsOf_eq (h.book.side _) (h.maker_grid _) (he.2 o hacc.payload)]
  exact (greedy_initial _ _ _).sublist.trans List.filter_sublist

include h he hacc in
theorem History.fills_nodup : ((fillsOf s o).map fun f => f.1.orderId).Nodup := by
  have hids := h.ids_nodup o.side
  rw [List.map_append] at hids
  have hsub := (h.reached_sublist he hacc).map RestingOrder.orderId
  rw [reached, List.map_map] at hsub
  exact hids.of_append_right.sublist hsub

include h he hacc in
theorem History.fill_maker {f : RestingOrder × ℚ} (hf : f ∈ fillsOf s o) :
    f.1 ∈ ordersOf (levelsFor s (maker_side o.side)) :=
  (h.reached_sublist he hacc).subset (List.mem_map.mpr ⟨f, hf, rfl⟩)

include h in
theorem History.id_accepted {x : RestingOrder} (hx : x ∈ s.resting) :
    x.orderId ∈ orders.map PlaceOrder.orderId := by
  obtain ⟨p, hp, hid, -⟩ := h.accepted x hx
  exact List.mem_map.mpr ⟨p, hp, hid⟩

include h he hacc in
theorem History.newReports (id : StreamId) :
    reports ((process s e id).2.map EngineOutputEvent.payload) =
      (fillsOf s o).map fillReport ++ [takerReported o (matched s e.toEnvelopeMeta o)
        (settleRemainder e.toEnvelopeMeta o (matched s e.toEnvelopeMeta o)).2.2] := by
  have hids := h.ids_nodup o.side
  rw [List.map_append] at hids
  have hcross : ((crossing o (levelsFor s (maker_side o.side))).map RestingOrder.orderId).Nodup := by
    rw [crossing_eq_filter (h.book.side _)]
    exact hids.of_append_right.sublist (List.filter_sublist.map _)
  rw [hacc.payloads, placeAccepted_reports, matched_makerTouched e.toEnvelopeMeta
    (h.maker_grid _) hcross (he.2 o hacc.payload), List.map_map]
  rfl

include h he hacc in
/-- Where an order that rests after the placement comes from. -/
theorem History.placed_cases {x : RestingOrder}
    (hx : x ∈ (placedState s e.toEnvelopeMeta o).resting) :
    x ∈ ownRest e.toEnvelopeMeta o (matched s e.toEnvelopeMeta o) ∨
      x ∈ ordersOf (levelsFor s o.side) ∨
      ∃ y ∈ ordersOf (levelsFor s (maker_side o.side)), leftOf (fillsOf s o) y = some x := by
  have hside := h.book.side (maker_side o.side)
  rcases List.mem_append.mp ((placed_resting h.book _ o).mem_iff.mp hx) with hx | hx
  · exact Or.inl hx
  rcases List.mem_append.mp ((matched_resting_perm s _ o).mem_iff.mp hx) with hx | hx
  · exact Or.inr (Or.inl hx)
  refine Or.inr (Or.inr ?_)
  rw [sweepLevels_eq (fun l hl => (hside.levels l hl).nonempty) (h.book.nodup _) (h.maker_grid _)
    (he.2 o hacc.payload)] at hx
  obtain ⟨l, hl, hx⟩ := mem_ordersOf.mp hx
  obtain ⟨l', hl', rfl⟩ := List.mem_map.mp (List.mem_of_mem_filter hl)
  obtain ⟨y, hy, hxy⟩ := List.mem_filterMap.mp hx
  exact ⟨y, mem_ordersOf.mpr ⟨l', hl', hy⟩, hxy⟩

include h in
theorem History.placed_distinct (hnew : o.orderId ∉ orders.map PlaceOrder.orderId) :
    ((placedState s e.toEnvelopeMeta o).resting.map RestingOrder.orderId).Nodup :=
  placed_resting_distinct h.book h.distinct e.toEnvelopeMeta fun _ hx hid =>
    hnew (hid ▸ h.id_accepted hx)

include h he hacc in
/-- An order that the new one does not reach keeps its total. -/
theorem History.traded_unreached {x : RestingOrder} (hx : x ∈ s.resting)
    (hnew : o.orderId ∉ orders.map PlaceOrder.orderId) (hout : ∀ f ∈ fillsOf s o, f.1 ≠ x) :
    tradedQty x.orderId ((fillsOf s o).mapIdx (tradeOf s e.toEnvelopeMeta o)) = 0 := by
  have hne : x.orderId ≠ o.orderId := fun hid => hnew (hid ▸ h.id_accepted hx)
  rw [tradedQty_fills _ _ _ hne, filter_of_notMem]
  · rfl
  · intro hmem
    obtain ⟨f, hf, hid⟩ := List.mem_map.mp hmem
    refine hout f hf (List.inj_on_of_nodup_map h.distinct ?_ hx hid)
    exact BookOK.resting_of_side s (h.fill_maker he hacc hf)

include h he hacc in
theorem History.traded_maker {f : RestingOrder × ℚ} (hf : f ∈ fillsOf s o)
    (hnew : o.orderId ∉ orders.map PlaceOrder.orderId) :
    tradedQty f.1.orderId ((fillsOf s o).mapIdx (tradeOf s e.toEnvelopeMeta o)) = f.2 := by
  have hx := BookOK.resting_of_side s (h.fill_maker he hacc hf)
  have hne : f.1.orderId ≠ o.orderId := fun hid => hnew (hid ▸ h.id_accepted hx)
  rw [tradedQty_fills _ _ _ hne, filter_of_mem (h.fills_nodup he hacc) hf]
  simp

include h he hacc in
theorem History.remaining_eq : (matched s e.toEnvelopeMeta o).remaining =
    o.quantity - traded (fillsOf s o) := by
  rw [matched_remaining, leftover_eq (fun x hx => h.maker_grid _ x (crossing_subset hx))
    (he.2 o hacc.payload)]
  rfl

include h he hacc in
/-- What is known after an accepted order. -/
theorem History.placed (hnew : o.orderId ∉ orders.map PlaceOrder.orderId) (id : StreamId) :
    History (process s e id).1 (orders ++ [o])
      (outs ++ (process s e id).2.map EngineOutputEvent.payload) := by
  have hids : (orders ++ [o]).map PlaceOrder.orderId = orders.map PlaceOrder.orderId ++ [o.orderId] :=
    List.map_append
  have htrades : trades (outs ++ (process s e id).2.map EngineOutputEvent.payload) =
      trades outs ++ (fillsOf s o).mapIdx (tradeOf s e.toEnvelopeMeta o) := by
    rw [trades_append, hacc.newTrades]
  have hunnamed : tradedQty o.orderId (trades outs) = 0 := tradedQty_of_unnamed fun t ht =>
    ⟨fun hm => hnew (hm ▸ (h.named t ht).1), fun hm => hnew (hm ▸ (h.named t ht).2)⟩
  refine ⟨bookOK_process h.book he.1 id, ?_, ?_, fun x hx => ?_, ?_, ?_⟩
  · rw [hacc.resting]
    exact h.placed_distinct hnew
  · rw [hacc.resting]
    exact placed_resting_grid _ o h.book h.grid (he.2 o hacc.payload)
  · rw [hacc.resting] at hx
    rw [htrades, tradedQty_append]
    -- what a resting order was known to have traded, and what this order adds to it
    have hkept (y : RestingOrder) (hy : y ∈ s.resting) (hout : ∀ f ∈ fillsOf s o, f.1 ≠ y) :
        ∃ p ∈ orders ++ [o], p.orderId = y.orderId ∧ y.remaining ≤ y.quantity ∧
          y.quantity ≤ p.quantity ∧ tradedQty y.orderId (trades outs) +
            tradedQty y.orderId ((fillsOf s o).mapIdx (tradeOf s e.toEnvelopeMeta o)) =
              p.quantity - y.remaining := by
      obtain ⟨p, hp, hid, h1, h2, h3⟩ := h.accepted y hy
      refine ⟨p, List.mem_append_left _ hp, hid, h1, h2, ?_⟩
      rw [h.traded_unreached he hacc hy hnew hout, h3, add_zero]
    rcases h.placed_cases he hacc hx with hx | hx | ⟨y, hy, hxy⟩
    · unfold ownRest at hx
      split_ifs at hx with hrest
      · rw [List.mem_singleton] at hx
        have hfilled : 0 ≤ traded (fillsOf s o) := List.sum_nonneg fun a ha => by
          obtain ⟨f, hf, rfl⟩ := List.mem_map.mp ha
          exact (fillsOf_bounds h.book hf).1.le
        have hrem := h.remaining_eq he hacc
        refine ⟨o, by simp, by rw [hx]; rfl, by rw [hx]; exact le_rfl, ?_, ?_⟩
        · rw [hx]
          show (matched s e.toEnvelopeMeta o).remaining ≤ o.quantity
          linarith
        · rw [hx]
          show tradedQty o.orderId _ + tradedQty o.orderId _ = o.quantity - (matched s _ o).remaining
          rw [hunnamed, tradedQty_taker, hrem]
          ring
      · cases hx
    · refine hkept x (BookOK.resting_of_side s hx) fun f hf hfx => ?_
      -- the makers are on the other side
      have hdisj := List.disjoint_of_nodup_append (h.ids_nodup o.side).of_map
      exact hdisj hx (hfx ▸ h.fill_maker he hacc hf)
    · rcases leftOf_cases hxy with ⟨hout, rfl⟩ | ⟨f, hf, rfl, rfl⟩
      · exact hkept x (BookOK.resting_of_side s hy) hout
      · obtain ⟨p, hp, hid, h1, h2, h3⟩ := h.accepted f.1 (BookOK.resting_of_side s hy)
        have hpos := (fillsOf_bounds h.book hf).1
        refine ⟨p, List.mem_append_left _ hp, hid, by dsimp only; linarith, h2, ?_⟩
        dsimp only
        rw [h.traded_maker he hacc hf hnew, h3]
        ring
  · rw [htrades, hids]
    intro t ht
    rcases List.mem_append.mp ht with ht | ht
    · exact ⟨List.mem_append_left _ (h.named t ht).1, List.mem_append_left _ (h.named t ht).2⟩
    · obtain ⟨i, hi, rfl⟩ := List.mem_mapIdx.mp ht
      refine ⟨List.mem_append_left _ (h.id_accepted (BookOK.resting_of_side s
        (h.fill_maker he hacc (List.getElem_mem hi)))), by simp [tradeOf]⟩
  · rw [hids]
    exact List.nodup_append'.mpr ⟨h.once, List.nodup_singleton _, by simpa using hnew⟩

/-! The reports after an accepted order -/

include h he hacc in
/-- The report on the new order itself is right. -/
theorem History.taker_reported (hnew : o.orderId ∉ orders.map PlaceOrder.orderId) (id : StreamId) :
    ReportedRight (outs ++ (process s e id).2.map EngineOutputEvent.payload) o := by
  have hunnamed : tradedQty o.orderId (trades outs) = 0 := tradedQty_of_unnamed fun t ht =>
    ⟨fun hm => hnew (hm ▸ (h.named t ht).1), fun hm => hnew (hm ▸ (h.named t ht).2)⟩
  have hrem := h.remaining_eq he hacc
  have hQ := he.2 o hacc.payload
  have hmg := matched_grid s e.toEnvelopeMeta o hQ
  have hv := hacc.valid he.1
  have hnonneg : 0 ≤ (matched s e.toEnvelopeMeta o).remaining := by
    rw [matched_remaining]
    exact leftover_nonneg _ hv.2.2.1.le
  unfold ReportedRight
  rw [reports_append, h.newReports he hacc, trades_append, hacc.newTrades, tradedQty_append, hunnamed,
    tradedQty_taker, zero_add, ← List.append_assoc]
  refine ⟨takerReported o _ _, latestReport_snoc _ (takerReported o _ _), ?_, ?_, ?_⟩
  · show q (o.quantity - (matched s e.toEnvelopeMeta o).remaining) = _
    rw [q_of_grid (hQ.sub hmg), hrem]
    ring
  · show (matched s e.toEnvelopeMeta o).remaining = _
    exact hrem
  · show (settleRemainder e.toEnvelopeMeta o (matched s e.toEnvelopeMeta o)).2.2 = _ ↔ _
    have hR := settleRemainder_cases e.toEnvelopeMeta o (matched s e.toEnvelopeMeta o)
    generalize settleRemainder e.toEnvelopeMeta o (matched s e.toEnvelopeMeta o) = r at hR
    cases hR with
    | rests ht hr =>
      have hlt := (grid_gt_iff hmg).mp hr
      refine iff_of_false ?_ (by linarith)
      dsimp only
      split_ifs <;> simp
    | refunded ht hr =>
      have hlt := (grid_gt_iff hmg).mp hr
      refine iff_of_false ?_ (by linarith)
      dsimp only
      split_ifs <;> simp
    | filled hr =>
      have hle := mt (grid_gt_iff hmg).mpr hr
      exact iff_of_true rfl (by linarith)

include h he hacc in
/-- The report on a maker is right exactly if the maker had not traded before. -/
theorem History.maker_reported (hnew : o.orderId ∉ orders.map PlaceOrder.orderId) (id : StreamId)
    {f : RestingOrder × ℚ} (hf : f ∈ fillsOf s o) {p : PlaceOrder} (hp : p ∈ orders)
    (hid : p.orderId = f.1.orderId) :
    ReportedRight (outs ++ (process s e id).2.map EngineOutputEvent.payload) p ↔
      f.1.remaining = p.quantity := by
  have hx := BookOK.resting_of_side s (h.fill_maker he hacc hf)
  have hg := h.grid _ hx
  have hfg := hits_grid (fun x hx => h.maker_grid _ x (crossing_subset hx)) (he.2 o hacc.payload) f hf
  obtain ⟨-, hle⟩ := fillsOf_bounds h.book hf
  obtain ⟨p', hp', hid', hq, hq', htraded⟩ := h.accepted f.1 hx
  obtain rfl : p' = p := List.inj_on_of_nodup_map h.once hp' hp (hid'.trans hid.symm)
  have hlast : o.orderId ≠ f.1.orderId := fun hof => hnew (hof ▸ h.id_accepted hx)
  unfold ReportedRight
  rw [reports_append, h.newReports he hacc, trades_append, hacc.newTrades, tradedQty_append, hid,
    htraded, h.traded_maker he hacc hf hnew, latestReport_fill (h.fills_nodup he hacc) hf _ hlast]
  constructor
  · rintro ⟨r, hr, hfilled, -, -⟩
    obtain rfl := Option.some.inj hr
    have hfilled : f.2 = p'.quantity - f.1.remaining + f.2 := hfilled
    linarith
  · intro hfresh
    have hquantity : f.1.quantity = f.1.remaining := le_antisymm (by linarith) hq
    have hrest : q (f.1.quantity - f.2) = f.1.remaining - f.2 := by
      rw [hquantity, q_of_grid (hg.sub hfg)]
    refine ⟨fillReport f, rfl, ?_, ?_, ?_⟩
    · show f.2 = _
      linarith
    · show max 0 (q (f.1.quantity - f.2)) = _
      rw [hrest, max_eq_right (by linarith)]
      linarith
    · show (if q (f.1.quantity - f.2) > 1e-9 then OrderStatus.PARTIAL else .FILLED) = .FILLED ↔ _
      rw [hrest]
      split_ifs with hpos
      · have hlt := (grid_gt_iff (hg.sub hfg)).mp hpos
        exact iff_of_false (by simp) (by linarith)
      · have hnot := mt (grid_gt_iff (hg.sub hfg)).mpr hpos
        exact iff_of_true rfl (by linarith)

include h he hacc in
/-- The report on an order that is not reached stays as it is, and so do its trades. -/
theorem History.other_reported (hnew : o.orderId ∉ orders.map PlaceOrder.orderId) (id : StreamId)
    {p : PlaceOrder} (hp : p ∈ orders)
    (hout : p.orderId ∉ (fillsOf s o).map fun f => f.1.orderId) :
    ReportedRight (outs ++ (process s e id).2.map EngineOutputEvent.payload) p ↔
      ReportedRight outs p := by
  have hne : p.orderId ≠ o.orderId := fun hid => hnew (hid ▸ List.mem_map_of_mem hp)
  have hunnamed : latestReport p.orderId (reports outs ++
      ((fillsOf s o).map fillReport ++ [takerReported o (matched s e.toEnvelopeMeta o)
        (settleRemainder e.toEnvelopeMeta o (matched s e.toEnvelopeMeta o)).2.2])) =
      latestReport p.orderId (reports outs) := by
    refine latestReport_of_unnamed _ fun r hr => ?_
    rcases List.mem_append.mp hr with hr | hr
    · obtain ⟨f, hf, rfl⟩ := List.mem_map.mp hr
      exact fun hid => hout (hid ▸ List.mem_map.mpr ⟨f, hf, rfl⟩)
    · rw [List.mem_singleton.mp hr]
      exact Ne.symm hne
  unfold ReportedRight
  rw [reports_append, h.newReports he hacc, trades_append, hacc.newTrades, tradedQty_append, hunnamed,
    tradedQty_fills _ _ _ hne, filter_of_notMem hout]
  simp

include h he hacc in
/-- One accepted order leaves all reports right exactly if its makers had not
traded before. -/
theorem History.reported_iff (hnew : o.orderId ∉ orders.map PlaceOrder.orderId) (id : StreamId)
    (hright : ∀ p ∈ orders, ReportedRight outs p) :
    (∀ p ∈ orders ++ [o], ReportedRight
      (outs ++ (process s e id).2.map EngineOutputEvent.payload) p) ↔
      ∀ y ∈ reached s o, ∀ p ∈ orders, p.orderId = y.orderId → y.remaining = p.quantity := by
  constructor
  · intro hall y hy p hp hid
    obtain ⟨f, hf, rfl⟩ := List.mem_map.mp hy
    exact (h.maker_reported he hacc hnew id hf hp hid).mp (hall p (List.mem_append_left _ hp))
  · intro hfresh p hp
    rcases List.mem_append.mp hp with hp | hp
    · by_cases hmem : p.orderId ∈ (fillsOf s o).map fun f => f.1.orderId
      · obtain ⟨f, hf, hid⟩ := List.mem_map.mp hmem
        exact (h.maker_reported he hacc hnew id hf hp hid.symm).mpr
          (hfresh f.1 (List.mem_map.mpr ⟨f, hf, rfl⟩) p hp hid.symm)
      · exact (h.other_reported he hacc hnew id hp hmem).mpr (hright p hp)
    · rw [List.mem_singleton.mp hp]
      exact h.taker_reported he hacc hnew id

end Accepted

/-! Whole runs -/

/-- After the run, the latest report on every accepted order is right. -/
def ReportsRight (s : EngineState) (evs : List (EngineInputEvent × StreamId)) : Prop :=
  ∀ p ∈ acceptedOrders s evs, ReportedRight ((run s evs).2.map EngineOutputEvent.payload) p

instance (s : EngineState) (evs : List (EngineInputEvent × StreamId)) :
    Decidable (ReportsRight s evs) :=
  inferInstanceAs (Decidable (∀ p ∈ acceptedOrders s evs, _))

/-- Every maker that the event's order reaches still has the whole quantity it
was placed with. -/
def FreshMakers (s : EngineState) (orders : List PlaceOrder) (e : EngineInputEvent) : Prop :=
  ∀ o ∈ acceptedOrder s e, ∀ y ∈ reached s o, ∀ p ∈ orders, p.orderId = y.orderId →
    y.remaining = p.quantity

section Runs

variable {evs : List (EngineInputEvent × StreamId)} {x : EngineInputEvent × StreamId}

theorem runOf_snoc {P : EngineInputEvent → Prop} (h : RunOf P (evs ++ [x])) :
    RunOf P evs ∧ P x.1 :=
  ⟨fun y hy => h y (List.mem_append_left _ hy), h x (by simp)⟩

/-- An order placed once is new when it is accepted. -/
theorem notMem_acceptedOrders {s : EngineState} (honce : (placedIds (evs ++ [x])).Nodup)
    {o : PlaceOrder} (hacc : acceptedOrder (run s evs).1 x.1 = some o) :
    o.orderId ∉ (acceptedOrders s evs).map PlaceOrder.orderId := by
  have hids := acceptedOrders_ids s (evs ++ [x])
  rw [acceptedOrders_snoc, hacc, List.map_append] at hids
  intro hmem
  exact (List.nodup_append'.mp (honce.sublist hids)).2.2 hmem (by simp)

theorem placedIds_snoc (honce : (placedIds (evs ++ [x])).Nodup) : (placedIds evs).Nodup := by
  unfold placedIds at honce ⊢
  rw [List.filterMap_append] at honce
  exact honce.of_append_left

theorem run_history (market : MarketConfig) (hevs : RunOf QuantityOnGrid evs)
    (honce : (placedIds evs).Nodup) :
    History (run (createState market) evs).1 (acceptedOrders (createState market) evs)
      ((run (createState market) evs).2.map EngineOutputEvent.payload) := by
  induction evs using List.reverseRecOn with
  | nil => exact history_createState market
  | append_singleton evs x ih =>
    obtain ⟨hevs, hx⟩ := runOf_snoc hevs
    have ih := ih hevs (placedIds_snoc honce)
    rw [run_snoc, List.map_append, acceptedOrders_snoc]
    cases hacc : acceptedOrder (run (createState market) evs).1 x.1 with
    | none =>
      rw [Option.toList_none, List.append_nil]
      exact ih.quiet hx.1 (acceptedOrder_eq_none.mp hacc) x.2
    | some o => exact ih.placed hx (acceptedOrder_eq_some.mp hacc) (notMem_acceptedOrders honce hacc) x.2

/-- One more event. -/
theorem reportsRight_snoc (market : MarketConfig) (hevs : RunOf QuantityOnGrid (evs ++ [x]))
    (honce : (placedIds (evs ++ [x])).Nodup) (hright : ReportsRight (createState market) evs) :
    ReportsRight (createState market) (evs ++ [x]) ↔
      FreshMakers (run (createState market) evs).1 (acceptedOrders (createState market) evs) x.1 := by
  obtain ⟨hevs, hx⟩ := runOf_snoc hevs
  have hist := run_history market hevs (placedIds_snoc honce)
  unfold ReportsRight FreshMakers
  rw [run_snoc, List.map_append, acceptedOrders_snoc]
  cases hacc : acceptedOrder (run (createState market) evs).1 x.1 with
  | none =>
    have hquiet := process_quiet (acceptedOrder_eq_none.mp hacc) x.2
    refine iff_of_true (fun p hp => ?_) (by simp)
    rw [Option.toList_none, List.append_nil] at hp
    have hp := hright p hp
    unfold ReportedRight at hp ⊢
    rwa [reports_append, trades_append, reports_of_quiet hquiet, trades_of_quiet hquiet,
      List.append_nil, List.append_nil]
  | some o =>
    have := hist.reported_iff hx (acceptedOrder_eq_some.mp hacc) (notMem_acceptedOrders honce hacc)
      x.2 hright
    simpa using this

/-- The reports are right throughout a run exactly if no order ever reaches a
maker that has already traded. -/
theorem order_reports_cumulative (market : MarketConfig) (hevs : RunOf QuantityOnGrid evs)
    (honce : (placedIds evs).Nodup) :
    (∀ pre, pre <+: evs → ReportsRight (createState market) pre) ↔
      ∀ pre x, pre ++ [x] <+: evs → FreshMakers (run (createState market) pre).1
        (acceptedOrders (createState market) pre) x.1 := by
  induction evs using List.reverseRecOn with
  | nil =>
    refine iff_of_true (fun pre hpre => ?_) fun pre x hpre => ?_
    · rw [List.prefix_nil.mp hpre]
      simp [ReportsRight, acceptedOrders]
    · exact absurd (List.prefix_nil.mp hpre) (by simp)
  | append_singleton evs x ih =>
    have ih := ih (runOf_snoc hevs).1 (placedIds_snoc honce)
    have hlast := reportsRight_snoc market hevs honce
    constructor
    · intro hall pre y hpre
      have hbefore : ∀ pre, pre <+: evs → ReportsRight (createState market) pre := fun pre hpre =>
        hall pre (hpre.trans (List.prefix_append _ _))
      rcases List.prefix_concat_iff.mp hpre with heq | hpre
      · obtain ⟨rfl, hy⟩ := List.append_inj' heq rfl
        obtain rfl := List.singleton_inj.mp hy
        exact (hlast (hbefore pre (List.prefix_refl _))).mp (hall _ (List.prefix_refl _))
      · exact ih.mp hbefore pre y hpre
    · intro hfresh pre hpre
      have hbefore := ih.mpr fun pre y hpre => hfresh pre y (hpre.trans (List.prefix_append _ _))
      rcases List.prefix_concat_iff.mp hpre with rfl | hpre
      · exact (hlast (hbefore evs (List.prefix_refl _))).mpr (hfresh evs x (List.prefix_refl _))
      · exact hbefore pre hpre

end Runs

open Fixture in
/-- Two makers, each consumed by one taker. -/
theorem order_reports_cumulative_two_makers :
    let evs := numbered [user "m" 1000000, user "t" 1000000,
      place "m" "a1" .Ask .LIMIT 100 2 1 200, place "m" "a2" .Ask .LIMIT 101 3 1 303,
      place "t" "b1" .Bid .LIMIT 101 4 1 404]
    (∀ pre, pre <+: evs → ReportsRight (createState MARKET) pre) ↔
      ∀ pre x, pre ++ [x] <+: evs → FreshMakers (run (createState MARKET) pre).1
        (acceptedOrders (createState MARKET) pre) x.1 :=
  order_reports_cumulative MARKET (by decide +kernel) (by decide +kernel)

open Fixture in
/-- A maker of 10, consumed by a taker of 6 and a taker of 4: it is gone from the
book, and its second report says that 4 are filled and 6 remain. -/
theorem order_reports_not_cumulative :
    let evs := numbered [user "m" 1000000, user "t" 1000000,
      place "m" "a1" .Ask .LIMIT 100 10 1 1000, place "t" "b1" .Bid .LIMIT 100 6 1 600,
      place "t" "b2" .Bid .LIMIT 100 4 1 400]
    let r := run (createState MARKET) evs
    RunOf QuantityOnGrid evs ∧ (placedIds evs).Nodup ∧ r.1.resting = [] ∧
      latestReport "a1" (reports (r.2.map EngineOutputEvent.payload)) =
        some ⟨"a1", "m", .PARTIAL, 4, 6, 0⟩ ∧
      ¬ ReportsRight (createState MARKET) evs :=
  ⟨by decide +kernel, by decide +kernel, by decide +kernel, by decide +kernel, by decide +kernel⟩

end Engine

end Perps
