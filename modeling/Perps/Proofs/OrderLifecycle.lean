import Perps.Proofs.LiveStatus
import Perps.Proofs.OrderReports

/-! The life of an order, as the outputs tell it: what is open of every accepted order
follows from its trades and its cancellation, the book holds exactly what is open, and an
order that has left the book is not heard of again. -/

namespace Perps

open Lib

namespace Engine

/-- The ids of the orders that the outputs say were cancelled. -/
def cancelledIds (outs : List DraftOutput) : List String :=
  outs.filterMap fun
    | .orderCancelled c => some c.orderId
    | _ => none

theorem cancelledIds_append (xs ys : List DraftOutput) :
    cancelledIds (xs ++ ys) = cancelledIds xs ++ cancelledIds ys := List.filterMap_append

/-- The quantity of an accepted order that is still to be traded. -/
def openQty (outs : List DraftOutput) (p : PlaceOrder) : ℚ :=
  if p.orderType = .MARKET ∨ p.orderId ∈ cancelledIds outs then 0
  else p.quantity - tradedQty p.orderId (trades outs)

/-- The order that rests is what was placed. -/
structure RestsFrom (p : PlaceOrder) (x : RestingOrder) : Prop where
  orderId : x.orderId = p.orderId
  userId : x.userId = p.userId
  side : x.side = p.side
  price : x.price = p.price
  leverage : x.leverage = p.leverage
  limit : p.orderType = .LIMIT

/-- Every resting order is open, and every open order rests. -/
structure BookOpen (s : EngineState) (orders : List PlaceOrder) (outs : List DraftOutput) :
    Prop where
  resting : ∀ x ∈ s.resting, x.orderId ∉ cancelledIds outs ∧ ∃ p ∈ orders, RestsFrom p x
  gone : ∀ p ∈ orders, p.orderId ∉ s.resting.map RestingOrder.orderId → openQty outs p = 0
  cancelled : ∀ id ∈ cancelledIds outs, id ∈ orders.map PlaceOrder.orderId

theorem openQty_of_cancelled {outs : List DraftOutput} {p : PlaceOrder}
    (h : p.orderId ∈ cancelledIds outs) : openQty outs p = 0 := if_pos (Or.inr h)

/-- What is closed stays closed while no trade names the order. -/
theorem openQty_closed {outs new : List DraftOutput} {p : PlaceOrder} (h : openQty outs p = 0)
    (hnew : tradedQty p.orderId (trades new) = 0) : openQty (outs ++ new) p = 0 := by
  by_cases hc : p.orderType = .MARKET ∨ p.orderId ∈ cancelledIds outs
  · refine if_pos (hc.imp_right fun hmem => ?_)
    rw [cancelledIds_append]
    exact List.mem_append_left _ hmem
  · unfold openQty at h ⊢
    rw [if_neg hc] at h
    rw [trades_append, tradedQty_append, hnew, add_zero, h, ite_self]

/-! Events that accept no order -/

/-- Only a cancellation takes an order off the book without a trade. -/
theorem process_cancels {s : EngineState} {e : EngineInputEvent} (he : engineInputEventSchema e)
    (hnot : ∀ o, ¬ Accepted s e o) (id : StreamId) :
    (process s e id).1.resting = s.resting ∧
        cancelledIds ((process s e id).2.map EngineOutputEvent.payload) = [] ∨
      ∃ removed, s.resting.Perm (removed :: (process s e id).1.resting) ∧
        cancelledIds ((process s e id).2.map EngineOutputEvent.payload) = [removed.orderId] := by
  by_cases ha : alreadyApplied s e = true
  · rw [process_applied ha]
    exact Or.inl ⟨rfl, rfl⟩
  rw [(process_new ha id).resting, process_payloads, reduce_of_new ha]
  have hout := dispatch_outcome s e
  have heff := dispatch_effect s e he
  generalize dispatch s e = r at hout heff
  cases hout with
  | opened p hp | deposited p hp =>
    refine Or.inl ⟨effect_resting heff ?_ ?_, rfl⟩ <;> intro x hx <;> rw [hp] at hx <;> cases hx
  | rejected | missed | stale => exact Or.inl ⟨rfl, rfl⟩
  | placed o hp hr hl => exact absurd ⟨hp, ha, hr, hl⟩ (hnot o)
  | cancelled c hp level removed ht hlevel hremoved =>
    have hid : removed.orderId = c.orderId := by simpa using List.find?_some hremoved
    refine Or.inr ⟨removed, ?_, by rw [hid]; rfl⟩
    rw [release_eq]
    exact withoutOrder_resting hlevel hremoved
  | swept p hp hseq =>
    refine Or.inl ⟨effect_resting heff ?_ ?_, ?_⟩
    · intro x hx
      rw [hp] at hx
      cases hx
    · intro x hx
      rw [hp] at hx
      cases hx
    · refine List.filterMap_eq_nil_iff.mpr fun d hd => ?_
      obtain ⟨l, -, hd⟩ := List.mem_flatMap.mp hd
      rcases List.mem_cons.mp hd with rfl | hd
      · rfl
      · rcases List.mem_pair.mp hd with rfl | rfl <;> rfl

/-- An event that accepts no order. -/
theorem BookOpen.quiet {s : EngineState} {orders : List PlaceOrder} {outs : List DraftOutput}
    (h : BookOpen s orders outs) (hids : (s.resting.map RestingOrder.orderId).Nodup)
    {e : EngineInputEvent} (he : engineInputEventSchema e) (hnot : ∀ o, ¬ Accepted s e o)
    (id : StreamId) : BookOpen (process s e id).1 orders
      (outs ++ (process s e id).2.map EngineOutputEvent.payload) := by
  have htrades := trades_of_quiet (process_quiet hnot id)
  have hclosed {p : PlaceOrder} (hp : openQty outs p = 0) :
      openQty (outs ++ (process s e id).2.map EngineOutputEvent.payload) p = 0 :=
    openQty_closed hp (by rw [htrades]; rfl)
  rcases process_cancels he hnot id with ⟨hrest, hnone⟩ | ⟨removed, hperm, hone⟩
  · refine ⟨fun x hx => ?_, fun p hp hgone => ?_, fun c hc => ?_⟩
    · rw [cancelledIds_append, hnone, List.append_nil]
      exact h.resting x (hrest ▸ hx)
    · exact hclosed (h.gone p hp (hrest ▸ hgone))
    · rw [cancelledIds_append, hnone, List.append_nil] at hc
      exact h.cancelled c hc
  · have hnodup := (hperm.map RestingOrder.orderId).nodup_iff.mp hids
    rw [List.map_cons, List.nodup_cons] at hnodup
    have hremoved := hperm.mem_iff.mpr (List.mem_cons_self (a := removed))
    refine ⟨fun x hx => ?_, fun p hp hgone => ?_, fun c hc => ?_⟩
    · obtain ⟨hopen, horder⟩ := h.resting x (hperm.mem_iff.mpr (List.mem_cons_of_mem _ hx))
      refine ⟨?_, horder⟩
      rw [cancelledIds_append, hone, List.mem_append, List.mem_singleton, not_or]
      exact ⟨hopen, fun hid => hnodup.1 (hid ▸ List.mem_map_of_mem hx)⟩
    · by_cases hid : p.orderId = removed.orderId
      · refine openQty_of_cancelled ?_
        rw [cancelledIds_append, hone, hid]
        exact List.mem_append_right _ (List.mem_singleton_self _)
      · refine hclosed (h.gone p hp fun hmem => ?_)
        have hmem := (hperm.map RestingOrder.orderId).mem_iff.mp hmem
        rcases List.mem_cons.mp hmem with heq | hmem
        · exact hid heq
        · exact hgone hmem
    · rw [cancelledIds_append, hone, List.mem_append, List.mem_singleton] at hc
      rcases hc with hc | rfl
      · exact h.cancelled c hc
      · obtain ⟨-, p, hp, hfrom⟩ := h.resting removed hremoved
        exact List.mem_map.mpr ⟨p, hp, hfrom.orderId.symm⟩

/-! An accepted order -/

theorem leftOf_eq_none {F : List (RestingOrder × ℚ)} {x : RestingOrder} (h : leftOf F x = none) :
    ∃ f ∈ F, f.1 = x ∧ f.2 = x.remaining := by
  unfold leftOf at h
  cases hfind : F.find? (fun f => f.1 = x) with
  | none =>
    rw [hfind] at h
    cases h
  | some f =>
    rw [hfind] at h
    dsimp only at h
    split_ifs at h with hall
    have hfx := List.find?_some hfind
    exact ⟨f, List.mem_of_find?_eq_some hfind, of_decide_eq_true hfx, hall⟩

theorem mem_levelsLeft {F : List (RestingOrder × ℚ)} {levels : List PriceLevel}
    {x y : RestingOrder} (hy : y ∈ ordersOf levels) (hxy : leftOf F y = some x) :
    x ∈ ordersOf (levelsLeft F levels) := by
  obtain ⟨l, hl, hy⟩ := mem_ordersOf.mp hy
  have hx : x ∈ l.orders.filterMap (leftOf F) := List.mem_filterMap.mpr ⟨y, hy, hxy⟩
  refine mem_ordersOf.mpr ⟨_, List.mem_filter.mpr ⟨List.mem_map_of_mem hl, ?_⟩, hx⟩
  exact decide_eq_true (List.ne_nil_of_mem hx)

section Placed

variable {s : EngineState} {orders : List PlaceOrder} {outs : List DraftOutput}
  (hist : History s orders outs) {e : EngineInputEvent} (he : QuantityOnGrid e) {o : PlaceOrder}
  (hacc : Accepted s e o)

include hist he hacc

/-- An order that rested before rests still, unless its fill takes all of it. -/
theorem rests_or_taken {y : RestingOrder} (hy : y ∈ s.resting) :
    (∃ x ∈ (placedState s e.toEnvelopeMeta o).resting, x.orderId = y.orderId) ∨
      ∃ f ∈ fillsOf s o, f.1 = y ∧ f.2 = y.remaining := by
  have hside := hist.book.side (maker_side o.side)
  have hrest := placed_resting hist.book e.toEnvelopeMeta o
  have hmatched := matched_resting_perm s e.toEnvelopeMeta o
  rcases List.mem_append.mp ((BookOK.resting_perm s o.side).mem_iff.mp hy) with hy | hy
  · exact Or.inl ⟨y, hrest.mem_iff.mpr (List.mem_append_right _
      (hmatched.mem_iff.mpr (List.mem_append_left _ hy))), rfl⟩
  · rw [sweepLevels_eq (fun l hl => (hside.levels l hl).nonempty) (hist.book.nodup _)
      (hist.maker_grid _) (he.2 o hacc.payload)] at hmatched
    cases hleft : leftOf (fillsOf s o) y with
    | none => exact Or.inr (leftOf_eq_none hleft)
    | some x =>
      refine Or.inl ⟨x, hrest.mem_iff.mpr (List.mem_append_right _
        (hmatched.mem_iff.mpr (List.mem_append_right _ (mem_levelsLeft hy hleft)))), ?_⟩
      rcases leftOf_cases hleft with ⟨-, rfl⟩ | ⟨f, -, rfl, rfl⟩ <;> rfl

/-- A limit order of which something is left rests. -/
theorem own_rests_or_filled (hlimit : o.orderType = .LIMIT) :
    (∃ x ∈ (placedState s e.toEnvelopeMeta o).resting, x.orderId = o.orderId) ∨
      traded (fillsOf s o) = o.quantity := by
  have hremaining := hist.remaining_eq he hacc
  by_cases hopen : (matched s e.toEnvelopeMeta o).remaining > 1e-9
  · have hown : ownRest e.toEnvelopeMeta o (matched s e.toEnvelopeMeta o) = [_] :=
      if_pos ⟨hlimit, hopen⟩
    refine Or.inl ⟨_, (placed_resting hist.book e.toEnvelopeMeta o).mem_iff.mpr
      (List.mem_append_left _ (hown ▸ List.mem_singleton_self _)), rfl⟩
  · have hgrid := matched_grid s e.toEnvelopeMeta o (he.2 o hacc.payload)
    have hnonneg : 0 ≤ (matched s e.toEnvelopeMeta o).remaining := by
      rw [matched_remaining]
      exact leftover_nonneg _ (hacc.valid he.1).2.2.1.le
    rw [grid_gt_iff hgrid] at hopen
    exact Or.inr (by linarith)

/-- The trades of the new order name no order that did not rest. -/
theorem tradedQty_gone {p : PlaceOrder} (hp : p.orderId ≠ o.orderId)
    (hgone : p.orderId ∉ s.resting.map RestingOrder.orderId) :
    tradedQty p.orderId ((fillsOf s o).mapIdx (tradeOf s e.toEnvelopeMeta o)) = 0 := by
  rw [tradedQty_fills _ _ _ hp, filter_of_notMem]
  · rfl
  · intro hmem
    obtain ⟨f, hf, hid⟩ := List.mem_map.mp hmem
    exact hgone (List.mem_map.mpr ⟨f.1,
      BookOK.resting_of_side s (hist.fill_maker he hacc hf), hid⟩)

omit hist he in
theorem accepted_cancels (id : StreamId) :
    cancelledIds ((process s e id).2.map EngineOutputEvent.payload) = [] := by
  rw [hacc.payloads]
  refine List.filterMap_eq_nil_iff.mpr fun d hd => ?_
  rcases mem_placeAccepted s e.toEnvelopeMeta o hd with hd | ⟨r, rfl⟩ | ⟨u, hd⟩
  · rcases hd with ⟨t, rfl⟩ | ⟨x, rfl⟩ <;> rfl
  · rfl
  · rcases List.mem_pair.mp hd with rfl | rfl <;> rfl

/-- The order that rests after the placement is open. -/
theorem BookOpen.placed_rests (h : BookOpen s orders outs)
    (hnew : o.orderId ∉ orders.map PlaceOrder.orderId) {x : RestingOrder}
    (hx : x ∈ (placedState s e.toEnvelopeMeta o).resting) :
    x.orderId ∉ cancelledIds outs ∧ ∃ p ∈ orders ++ [o], RestsFrom p x := by
  rcases hist.placed_cases he hacc hx with hx | hx | ⟨y, hy, hxy⟩
  · unfold ownRest at hx
    split_ifs at hx with hrest
    · rw [List.mem_singleton.mp hx]
      exact ⟨fun hmem => hnew (h.cancelled _ hmem), o, by simp, rfl, rfl, rfl, rfl, rfl, hrest.1⟩
    · cases hx
  · obtain ⟨hopen, p, hp, hfrom⟩ := h.resting x (BookOK.resting_of_side s hx)
    exact ⟨hopen, p, List.mem_append_left _ hp, hfrom⟩
  · obtain ⟨hopen, p, hp, hfrom⟩ := h.resting y (BookOK.resting_of_side s hy)
    rcases leftOf_cases hxy with ⟨-, rfl⟩ | ⟨f, -, rfl, rfl⟩
    · exact ⟨hopen, p, List.mem_append_left _ hp, hfrom⟩
    · exact ⟨hopen, p, List.mem_append_left _ hp, hfrom.orderId, hfrom.userId, hfrom.side,
        hfrom.price, hfrom.leverage, hfrom.limit⟩

/-- An order that rested and rests no more has traded all it was placed for. -/
theorem taken_traded {p : PlaceOrder} (hp : p ∈ orders) {f : RestingOrder × ℚ}
    (hf : f ∈ fillsOf s o) (hid : f.1.orderId = p.orderId) (hall : f.2 = f.1.remaining)
    (hnew : o.orderId ∉ orders.map PlaceOrder.orderId) :
    tradedQty p.orderId (trades outs) +
      tradedQty p.orderId ((fillsOf s o).mapIdx (tradeOf s e.toEnvelopeMeta o)) = p.quantity := by
  have hrest := BookOK.resting_of_side s (hist.fill_maker he hacc hf)
  obtain ⟨p', hp', hid', -, -, htraded⟩ := hist.accepted f.1 hrest
  obtain rfl : p' = p := List.inj_on_of_nodup_map hist.once hp' hp (hid'.trans hid)
  rw [← hid, htraded, hist.traded_maker he hacc hf hnew, hall]
  ring

theorem BookOpen.placed (h : BookOpen s orders outs)
    (hnew : o.orderId ∉ orders.map PlaceOrder.orderId) (id : StreamId) :
    BookOpen (process s e id).1 (orders ++ [o])
      (outs ++ (process s e id).2.map EngineOutputEvent.payload) := by
  have hcancels : cancelledIds (outs ++ (process s e id).2.map EngineOutputEvent.payload) =
      cancelledIds outs := by
    rw [cancelledIds_append, accepted_cancels hacc, List.append_nil]
  have hopen (p : PlaceOrder) : tradedQty p.orderId (trades outs) +
      tradedQty p.orderId ((fillsOf s o).mapIdx (tradeOf s e.toEnvelopeMeta o)) = p.quantity →
        openQty (outs ++ (process s e id).2.map EngineOutputEvent.payload) p = 0 := fun hall => by
    unfold openQty
    rw [trades_append, hacc.newTrades, tradedQty_append, hall, sub_self, ite_self]
  refine ⟨fun x hx => ?_, fun p hp hgone => ?_, fun c hc => ?_⟩
  · rw [hacc.resting] at hx
    rw [hcancels]
    exact h.placed_rests hist he hacc hnew hx
  · rw [hacc.resting] at hgone
    rcases List.mem_append.mp hp with hp | hp
    · have hne : p.orderId ≠ o.orderId := fun hid => hnew (hid ▸ List.mem_map_of_mem hp)
      by_cases hrest : p.orderId ∈ s.resting.map RestingOrder.orderId
      · obtain ⟨y, hy, hid⟩ := List.mem_map.mp hrest
        rcases rests_or_taken hist he hacc hy with ⟨x, hx, hxid⟩ | ⟨f, hf, rfl, hall⟩
        · exact absurd (List.mem_map.mpr ⟨x, hx, hxid.trans hid⟩) hgone
        · exact hopen p (taken_traded hist he hacc hp hf hid hall hnew)
      · refine openQty_closed (h.gone p hp hrest) ?_
        rw [hacc.newTrades]
        exact tradedQty_gone hist he hacc hne hrest
    · obtain rfl := List.mem_singleton.mp hp
      cases hlimit : p.orderType with
      | MARKET => exact if_pos (Or.inl hlimit)
      | LIMIT =>
        rcases own_rests_or_filled hist he hacc hlimit with ⟨x, hx, hxid⟩ | hfilled
        · exact absurd (List.mem_map.mpr ⟨x, hx, hxid⟩) hgone
        · refine hopen p ?_
          rw [tradedQty_of_unnamed, tradedQty_taker, zero_add, hfilled]
          exact fun t ht => ⟨fun hm => hnew (hm ▸ (hist.named t ht).1),
            fun hm => hnew (hm ▸ (hist.named t ht).2)⟩
  · rw [hcancels] at hc
    rw [List.map_append]
    exact List.mem_append_left _ (h.cancelled c hc)

end Placed

/-! What is not heard of again -/

/-- The output says that something happened to the order. -/
def Names (orderId : String) : DraftOutput → Prop
  | .tradeExecuted t => t.makerOrderId = orderId ∨ t.takerOrderId = orderId
  | .orderAccepted r => r.orderId = orderId
  | .orderCancelled c => c.orderId = orderId
  | _ => False

section Names

variable {s : EngineState} {e : EngineInputEvent} {orderId : String}

/-- An accepted order names its makers and itself. -/
theorem accepted_names {o : PlaceOrder} {d : DraftOutput} (hn : Names orderId d)
    (hd : d ∈ (placeAccepted e.toEnvelopeMeta o (lock s o.userId o.margin).1).2) :
    orderId ∈ s.resting.map RestingOrder.orderId ∨ o.orderId = orderId := by
  have hreached {id : String} (hid : id ∈ (reached s o).map RestingOrder.orderId) :
      id ∈ s.resting.map RestingOrder.orderId := by
    obtain ⟨x, hx, rfl⟩ := List.mem_map.mp hid
    exact List.mem_map_of_mem (BookOK.resting_of_side s (crossing_subset (hits_mem hx)))
  cases d with
  | tradeExecuted t =>
    have ht : t ∈ trades (placeAccepted e.toEnvelopeMeta o (lock s o.userId o.margin).1).2 :=
      List.mem_filterMap.mpr ⟨_, hd, rfl⟩
    rw [placeAccepted_trades, matched_trades] at ht
    obtain ⟨i, hi, rfl⟩ := List.mem_mapIdx.mp ht
    rcases hn with hn | hn
    · exact Or.inl (hreached (List.mem_map.mpr
        ⟨_, List.mem_map_of_mem (List.getElem_mem hi), hn⟩))
    · exact Or.inr hn
  | orderAccepted r =>
    have hr : r ∈ reports (placeAccepted e.toEnvelopeMeta o (lock s o.userId o.margin).1).2 :=
      List.mem_filterMap.mpr ⟨_, hd, rfl⟩
    rw [placeAccepted_reports] at hr
    rcases List.mem_append.mp hr with hr | hr
    · obtain ⟨y, hy, rfl⟩ := List.mem_map.mp hr
      exact Or.inl (hreached ((matched_keys s e.toEnvelopeMeta o orderId).mp
        (List.mem_map.mpr ⟨y, hy, hn⟩)))
    · rw [List.mem_singleton.mp hr] at hn
      exact Or.inr hn
  | orderCancelled c =>
    rcases mem_placeAccepted s e.toEnvelopeMeta o hd with hd | ⟨r, hr⟩ | ⟨u, hd⟩
    · rcases hd with ⟨t, ht⟩ | ⟨x, hx⟩
      · cases ht
      · cases hx
    · cases hr
    · simp [accountEvents] at hd
  | _ => exact hn.elim

/-- An event names orders that rest, and the order that it places. -/
theorem process_names (he : engineInputEventSchema e) (id : StreamId) {d : DraftOutput}
    (hd : d ∈ (process s e id).2.map EngineOutputEvent.payload) (hn : Names orderId d) :
    orderId ∈ s.resting.map RestingOrder.orderId ∨
      ∃ o, e.payload = .orderPlace o ∧ o.orderId = orderId := by
  by_cases hacc : ∃ o, Accepted s e o
  · obtain ⟨o, hacc⟩ := hacc
    rw [hacc.payloads] at hd
    exact (accepted_names hn hd).imp_right fun hid => ⟨o, hacc.payload, hid⟩
  · have hquiet := process_quiet (not_exists.mp hacc) id d hd
    cases d with
    | orderCancelled c =>
      have hc : c.orderId ∈ cancelledIds ((process s e id).2.map EngineOutputEvent.payload) :=
        List.mem_filterMap.mpr ⟨_, hd, rfl⟩
      rcases process_cancels he (not_exists.mp hacc) id with ⟨-, hnone⟩ | ⟨removed, hperm, hone⟩
      · rw [hnone] at hc
        cases hc
      · rw [hone, List.mem_singleton] at hc
        refine Or.inl (List.mem_map.mpr ⟨removed, ?_, hc.symm.trans hn⟩)
        exact hperm.mem_iff.mpr List.mem_cons_self
    | tradeExecuted | orderAccepted => exact hquiet.elim
    | _ => exact hn.elim

/-- What rests after an event rested before it, or is the order that it places. -/
theorem process_rests (he : engineInputEventSchema e) (hbook : BookOK s) (id : StreamId)
    (h : orderId ∈ (process s e id).1.resting.map RestingOrder.orderId) :
    orderId ∈ s.resting.map RestingOrder.orderId ∨
      ∃ o, e.payload = .orderPlace o ∧ o.orderId = orderId := by
  obtain ⟨x, hx, rfl⟩ := List.mem_map.mp h
  by_cases hacc : ∃ o, Accepted s e o
  · obtain ⟨o, hacc⟩ := hacc
    rw [hacc.resting] at hx
    rcases List.mem_append.mp ((placed_resting hbook e.toEnvelopeMeta o).mem_iff.mp hx) with hx | hx
    · exact Or.inr ⟨o, hacc.payload, (ownRest_live hx).1.symm⟩
    · obtain ⟨y, hy, hxy⟩ := matched_reduced hbook e.toEnvelopeMeta o hx
      exact Or.inl (List.mem_map.mpr ⟨y, hy, (Reduced.orderId hxy).symm⟩)
  · obtain ⟨gone, hperm⟩ := process_resting he (not_exists.mp hacc) id
    exact Or.inl (List.mem_map_of_mem (hperm.mem_iff.mpr (List.mem_append_right _ hx)))

/-- An order that does not rest and is not placed is not named. -/
theorem run_closed_silent (hbook : BookOK s) {evs : List (EngineInputEvent × StreamId)}
    (hevs : RunOf engineInputEventSchema evs) (hplaced : orderId ∉ placedIds evs)
    (hgone : orderId ∉ s.resting.map RestingOrder.orderId) :
    ∀ out ∈ (run s evs).2, ¬ Names orderId out.payload := by
  induction evs generalizing s with
  | nil => exact fun out hout => absurd hout List.not_mem_nil
  | cons x xs ih =>
    have hx := hevs x List.mem_cons_self
    have hnot : ¬ ∃ o, x.1.payload = .orderPlace o ∧ o.orderId = orderId := by
      rintro ⟨o, hp, rfl⟩
      rw [placedIds_cons, placedIds_of_place hp] at hplaced
      exact hplaced List.mem_cons_self
    intro out hout hn
    rcases List.mem_append.mp hout with hout | hout
    · exact (process_names hx x.2 (List.mem_map_of_mem hout) hn).elim hgone hnot
    · refine ih (bookOK_process hbook hx x.2) (fun y hy => hevs y (List.mem_cons_of_mem _ hy)) ?_ ?_
        out hout hn
      · intro hmem
        exact hplaced (placedIds_cons x xs ▸ List.mem_append_right _ hmem)
      · exact fun hmem => (process_rests hx hbook x.2 hmem).elim hgone hnot

end Names

theorem bookOpen_createState (market : MarketConfig) : BookOpen (createState market) [] [] where
  resting := by simp [createState, EngineState.resting]
  gone := by simp
  cancelled := by simp [cancelledIds]

section Runs

variable {evs : List (EngineInputEvent × StreamId)}

theorem run_bookOpen (market : MarketConfig) (hevs : RunOf QuantityOnGrid evs)
    (honce : (placedIds evs).Nodup) :
    BookOpen (run (createState market) evs).1 (acceptedOrders (createState market) evs)
      ((run (createState market) evs).2.map EngineOutputEvent.payload) := by
  induction evs using List.reverseRecOn with
  | nil => exact bookOpen_createState market
  | append_singleton evs x ih =>
    obtain ⟨hevs, hx⟩ := runOf_snoc hevs
    have hist := run_history market hevs (placedIds_snoc honce)
    have ih := ih hevs (placedIds_snoc honce)
    rw [run_snoc, List.map_append, acceptedOrders_snoc]
    cases hacc : acceptedOrder (run (createState market) evs).1 x.1 with
    | none =>
      rw [Option.toList_none, List.append_nil]
      exact ih.quiet hist.distinct hx.1 (acceptedOrder_eq_none.mp hacc) x.2
    | some o =>
      exact ih.placed hist hx (acceptedOrder_eq_some.mp hacc) (notMem_acceptedOrders honce hacc) x.2

/-- What the run from the start says about an accepted order. -/
inductive LifeOf (r : EngineState × List EngineOutputEvent)
    (evs : List (EngineInputEvent × StreamId)) (p : PlaceOrder) : Prop
  /-- The order is open, and rests with what is open of it. -/
  | working (x : RestingOrder) (hx : x ∈ r.1.resting) (hfrom : RestsFrom p x)
    (hopen : 0 < openQty (r.2.map EngineOutputEvent.payload) p)
    (hremaining : x.remaining = openQty (r.2.map EngineOutputEvent.payload) p)
  /-- Nothing of the order is open, it is off the book, and no run goes on to name it. -/
  | closed (hclosed : openQty (r.2.map EngineOutputEvent.payload) p = 0)
    (hgone : p.orderId ∉ r.1.resting.map RestingOrder.orderId)
    (hsilent : ∀ more, RunOf engineInputEventSchema more → (placedIds (evs ++ more)).Nodup →
      ∀ out ∈ (run r.1 more).2, ¬ Names p.orderId out.payload)

/-- After every run from the start in which order ids are not used twice and quantities are
on the grid: the book holds what is open of the accepted orders, each once, and nothing
else, and an order that is closed is not heard of again. -/
theorem order_lifecycle (market : MarketConfig) (hevs : RunOf QuantityOnGrid evs)
    (honce : (placedIds evs).Nodup) :
    let r := run (createState market) evs
    (r.1.resting.map RestingOrder.orderId).Nodup ∧
      (∀ x ∈ r.1.resting, ∃ p ∈ acceptedOrders (createState market) evs, RestsFrom p x) ∧
        ∀ p ∈ acceptedOrders (createState market) evs, LifeOf r evs p := by
  intro r
  have hist := run_history market hevs honce
  have hopen := run_bookOpen market hevs honce
  refine ⟨hist.distinct, fun x hx => (hopen.resting x hx).2, fun p hp => ?_⟩
  by_cases hrest : p.orderId ∈ r.1.resting.map RestingOrder.orderId
  · obtain ⟨x, hx, hid⟩ := List.mem_map.mp hrest
    obtain ⟨hlive, p', hp', hfrom⟩ := hopen.resting x hx
    obtain rfl : p' = p :=
      List.inj_on_of_nodup_map hist.once hp' hp (hfrom.orderId.symm.trans hid)
    obtain ⟨p'', hp'', hid'', -, -, htraded⟩ := hist.accepted x hx
    obtain rfl : p'' = p' := List.inj_on_of_nodup_map hist.once hp'' hp' (hid''.trans hid)
    have hqty : openQty (r.2.map EngineOutputEvent.payload) p'' = x.remaining := by
      have hnot : ¬ (p''.orderType = .MARKET ∨
          p''.orderId ∈ cancelledIds (r.2.map EngineOutputEvent.payload)) := by
        rintro (hm | hc)
        · exact absurd (hfrom.limit.symm.trans hm) (by simp)
        · exact hlive (hid.symm ▸ hc)
      unfold openQty
      rw [if_neg hnot, ← hid, htraded]
      ring
    have hpos : 1e-9 < x.remaining := by
      rcases List.mem_append.mp hx with hx | hx
      · exact (hist.book.bids.order hx).live
      · exact (hist.book.asks.order hx).live
    exact .working x hx hfrom (by rw [hqty]; linarith) hqty.symm
  · refine .closed (hopen.gone p hp hrest) hrest fun more hmore hmoreOnce => ?_
    have hplaced : p.orderId ∈ placedIds evs :=
      (acceptedOrders_ids (createState market) evs).subset (List.mem_map_of_mem hp)
    have hdisj : p.orderId ∉ placedIds more := by
      unfold placedIds at hmoreOnce hplaced ⊢
      rw [List.filterMap_append] at hmoreOnce
      exact fun hmem => List.disjoint_of_nodup_append hmoreOnce hplaced hmem
    exact run_closed_silent hist.book hmore hdisj hrest

end Runs

open Fixture in
/-- An order that is filled in part and cancelled, and the one that was filled by it. -/
theorem order_lifecycle_cancelled :
    let r := run (createState MARKET) cancelledRest
    (acceptedOrders (createState MARKET) cancelledRest).length = 2 ∧
      (r.1.resting.map RestingOrder.orderId).Nodup ∧
      (∀ x ∈ r.1.resting, ∃ p ∈ acceptedOrders (createState MARKET) cancelledRest, RestsFrom p x) ∧
        ∀ p ∈ acceptedOrders (createState MARKET) cancelledRest, LifeOf r cancelledRest p :=
  ⟨by decide +kernel, order_lifecycle MARKET (by decide +kernel) (by decide +kernel)⟩

end Engine

end Perps
