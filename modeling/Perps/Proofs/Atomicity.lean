import Perps.Proofs.AccountEvents
import Perps.Proofs.BookInvariant

/-! Commands are atomic and touch their parties only: a rejection changes nothing but the
bookkeeping, an order changes the accounts and the resting orders that its trades name,
and a cancellation removes one order and moves its margin. All of it holds in every
state, reachable or not. -/

namespace Perps

open Lib

namespace Engine

/-! The frames -/

/-- `t` differs from `s` in the bookkeeping of `process` only. -/
def OnlyBookkeeping (s t : EngineState) : Prop :=
  t = { s with
    seq := t.seq
    lastInputId := t.lastInputId
    appliedCount := t.appliedCount
    appliedCommandIds := t.appliedCommandIds }

/-- What an accepted order with the trades `ts` leaves as it is. -/
structure PlaceFrame (s : EngineState) (o : PlaceOrder) (ts : List TradeExecuted)
    (t : EngineState) : Prop where
  others : ∀ u, u ≠ o.userId → (∀ x ∈ ts, x.makerUserId ≠ u) → records t u = records s u
  orders : ∀ x ∈ s.resting, (∀ y ∈ ts, y.makerOrderId ≠ x.orderId) → x ∈ t.resting
  markPrice : t.markPrice = s.markPrice
  lastObserverSeq : t.lastObserverSeq = s.lastObserverSeq
  lastTradePrice : t.lastTradePrice =
    (ts.getLast?.map TradeExecuted.price).getD s.lastTradePrice

/-- What a cancellation that removes `removed` does. -/
structure CancelFrame (s : EngineState) (c : CancelOrder) (t : EngineState)
    (removed : RestingOrder) : Prop where
  resting : s.resting.Perm (removed :: t.resting)
  own : removed.userId = c.userId ∧ removed.orderId = c.orderId
  others : ∀ u, u ≠ c.userId → records t u = records s u
  position : t.positions = s.positions
  total : (t.bal c.userId).total = (s.bal c.userId).total
  locked : (t.bal c.userId).locked =
    q ((s.bal c.userId).locked - (s.bal c.userId).moved removed.margin)
  free : (t.bal c.userId).free =
    q ((s.bal c.userId).free + (s.bal c.userId).moved removed.margin)
  prices : t.markPrice = s.markPrice ∧ t.lastTradePrice = s.lastTradePrice ∧
    t.lastObserverSeq = s.lastObserverSeq

/-- The balance and the order are as the engine keeps them, multiples of `10 ^ (-8)`. -/
structure OnGrid (b : Balance) (x : RestingOrder) : Prop where
  locked : Grid b.locked
  free : Grid b.free
  margin : Grid x.margin
  margin_nonneg : 0 ≤ x.margin

/-- The margin of `x`, or what is left locked, is moved from the locked to the free part. -/
structure MovedExactly (b : Balance) (x : RestingOrder) (b' : Balance) : Prop where
  locked : b'.locked = b.locked - min b.locked x.margin
  free : b'.free = b.free + min b.locked x.margin

/-- On the grid no rounding is left of the move. -/
theorem CancelFrame.exact {s t : EngineState} {c : CancelOrder} {removed : RestingOrder}
    (h : CancelFrame s c t removed) (hgrid : OnGrid (s.bal c.userId) removed) :
    MovedExactly (s.bal c.userId) removed (t.bal c.userId) := by
  have hmoved : (s.bal c.userId).moved removed.margin =
      min (s.bal c.userId).locked removed.margin := by
    rw [Balance.moved, max_eq_right hgrid.margin_nonneg]
  have hmin := hgrid.locked.min hgrid.margin
  constructor
  · rw [h.locked, hmoved, q_of_grid (hgrid.locked.sub hmin)]
  · rw [h.free, hmoved, q_of_grid (hgrid.free.add hmin)]

/-! Rejections -/

theorem process_bookkeeping {s : EngineState} {e : EngineInputEvent} (h : (dispatch s e).1 = s)
    (id : StreamId) : OnlyBookkeeping s (process s e id).1 := by
  rw [process_fst]
  by_cases ha : alreadyApplied s e = true
  · rw [reduce_of_applied ha]
    rfl
  · rw [reduce_of_new ha, h]
    rfl

/-- Whoever drafts a rejection leaves the state as it is. -/
theorem dispatch_rejected {s : EngineState} {e : EngineInputEvent} {r : OrderRejected}
    (h : .orderRejected r ∈ (dispatch s e).2) : (dispatch s e).1 = s := by
  have hout := dispatch_outcome s e
  generalize dispatch s e = out at hout h
  cases hout with
  | opened | deposited => cases List.mem_singleton.mp h
  | rejected | missed => rfl
  | placed o =>
    rcases mem_placeAccepted s e.toEnvelopeMeta o h with (⟨_, hd⟩ | ⟨_, hd⟩) | ⟨_, hd⟩ | ⟨u, hu⟩
    · cases hd
    · cases hd
    · cases hd
    · simp [accountEvents] at hu
  | cancelled => simp [deltaDraft] at h
  | stale => rfl
  | swept =>
    obtain ⟨l, -, hl⟩ := List.mem_flatMap.mp h
    simp [accountEvents] at hl

/-! Accepted orders -/

/-- The prices of a state and the last tick it has seen. -/
def quotes (s : EngineState) : ℚ × ℤ × ℚ := (s.markPrice, s.lastObserverSeq, s.lastTradePrice)

section Quotes

variable (s : EngineState) (e : EnvelopeMeta) (o : PlaceOrder)

theorem quotes_setLevels (side : Side) (levels : List PriceLevel) :
    quotes (setLevels s side levels) = quotes s := by
  cases side <;> rfl

theorem quotes_release (u : String) (a : ℚ) : quotes (release s u a).1 = quotes s := by
  rw [release_eq]
  rfl

theorem quotes_lock (u : String) (a : ℚ) : quotes (lock s u a).1 = quotes s := by
  unfold lock ensureBalance
  cases s.balances.get? u <;> dsimp only <;> split_ifs <;> rfl

theorem quotes_settleFill (m : Matching) (x : RestingOrder) :
    quotes (settleFill e o m x).state =
      (m.state.markPrice, m.state.lastObserverSeq, x.price) := by
  simp only [settleFill, nextSeq, applyFill_eq]
  rfl

/-- The fills leave the price of the last one. -/
theorem quotes_settleAll (m : Matching) (os : List RestingOrder) :
    quotes (settleAll e o m os).state = (m.state.markPrice, m.state.lastObserverSeq,
      (os.getLast?.map RestingOrder.price).getD m.state.lastTradePrice) := by
  induction os generalizing m with
  | nil => rfl
  | cons x xs ih =>
    have hone := quotes_settleFill e o m x
    simp only [quotes, Prod.mk.injEq] at hone
    refine (ih (settleFill e o m x)).trans ?_
    rw [hone.1, hone.2.1, hone.2.2, List.getLast?_cons]
    cases xs.getLast? <;> rfl

theorem quotes_placed : quotes (placedState s e o) = (s.markPrice, s.lastObserverSeq,
    ((reached s o).getLast?.map RestingOrder.price).getD s.lastTradePrice) := by
  have hlock := quotes_lock s o.userId o.margin
  simp only [quotes, Prod.mk.injEq] at hlock
  have hmatched : quotes (matched s e o).state = (s.markPrice, s.lastObserverSeq,
      ((reached s o).getLast?.map RestingOrder.price).getD s.lastTradePrice) := by
    rw [(matched_spec s e o).state]
    refine (quotes_setLevels _ _ _).trans ((quotes_settleAll e o _ _).trans ?_)
    simp only [matchStart, hlock.1, hlock.2.1, hlock.2.2]
    rfl
  have hrem := settleRemainder_cases e o (matched s e o)
  show quotes (settleRemainder e o (matched s e o)).1 = _
  generalize settleRemainder e o (matched s e o) = r at hrem
  cases hrem with
  | rests => exact (quotes_setLevels _ _ _).trans hmatched
  | refunded => exact (quotes_release _ _ _).trans hmatched
  | filled => exact hmatched

end Quotes

/-- An order that is not among the fills is still in the queue. -/
theorem mem_afterFills {os : List RestingOrder} {r : ℚ} {x : RestingOrder} (hx : x ∈ os)
    (hnot : x ∉ (hits os r).map Prod.fst) : x ∈ afterFills os r := by
  induction os generalizing r with
  | nil => exact hx
  | cons maker rest ih =>
    rw [afterFills]
    rw [hits] at hnot
    split_ifs at hnot ⊢
    · rw [List.map_cons, List.mem_cons, not_or] at hnot
      have hrest := ih ((List.mem_cons.mp hx).resolve_left hnot.1) hnot.2
      unfold shiftFilled
      split_ifs
      · exact hrest
      · exact List.mem_cons_of_mem _ hrest
    · exact hx

theorem ordersOf_spliceLevel (side : Side) (l : PriceLevel) (ls : List PriceLevel) :
    (ordersOf ls).Sublist (ordersOf (spliceLevel side l ls)) := by
  induction ls with
  | nil => exact List.nil_sublist _
  | cons m ms ih =>
    rw [spliceLevel]
    split_ifs
    · exact List.sublist_append_right _ _
    · exact ih.append_left _

theorem ordersOf_pushOrder (order : RestingOrder) (ls : List PriceLevel) :
    (ordersOf ls).Sublist (ordersOf (pushOrder order ls)) := by
  induction ls with
  | nil => exact .slnil
  | cons m ms ih =>
    rw [pushOrder]
    split_ifs
    · exact (List.sublist_append_left _ _).append_right _
    · exact ih.append_left _

/-- Nothing leaves a side that an order joins, in whatever order its levels stand. -/
theorem ordersOf_insertLevels (levels : List PriceLevel) (order : RestingOrder) :
    (ordersOf levels).Sublist (ordersOf (insertLevels levels order)) := by
  unfold insertLevels
  dsimp only
  split_ifs
  · exact ordersOf_pushOrder _ _
  · exact (ordersOf_spliceLevel _ _ _).trans (ordersOf_pushOrder _ _)

theorem mem_resting_iff {s : EngineState} (side : Side) {x : RestingOrder} :
    x ∈ s.resting ↔
      x ∈ ordersOf (levelsFor s side) ∨ x ∈ ordersOf (levelsFor s (maker_side side)) := by
  rw [(BookOK.resting_perm s side).mem_iff, List.mem_append]

section Placed

variable {s : EngineState} {o : PlaceOrder} {x : RestingOrder}

/-- A resting order that no fill names is still there after the fills. -/
theorem mem_matched (e : EnvelopeMeta) (hx : x ∈ s.resting) (hnot : x ∉ reached s o) :
    x ∈ (matched s e o).state.resting := by
  rw [(matched_resting_perm s e o).mem_iff, List.mem_append, ordersOf_sweepLevels, List.mem_append]
  rcases (mem_resting_iff o.side).mp hx with hown | hother
  · exact Or.inl hown
  · rw [ordersOf_eq o, List.mem_append] at hother
    exact Or.inr (hother.imp_left fun hcross => mem_afterFills hcross hnot)

/-- What the rest of the order joins stays where it is. -/
theorem mem_placed (e : EnvelopeMeta) (hx : x ∈ s.resting) (hnot : x ∉ reached s o) :
    x ∈ (placedState s e o).resting := by
  have hmatched := mem_matched e hx hnot
  have hrem := settleRemainder_cases e o (matched s e o)
  show x ∈ (settleRemainder e o (matched s e o)).1.resting
  generalize settleRemainder e o (matched s e o) = r at hrem
  cases hrem with
  | rests =>
    rw [mem_resting_iff o.side] at hmatched ⊢
    generalize horder : restingOrder e o (matched s e o).remaining _ = order
    have hside : order.side = o.side := by
      rw [← horder]
      rfl
    rw [← hside] at hmatched ⊢
    rw [insertResting_own, insertResting_other, nextSeq_levels, nextSeq_levels]
    exact hmatched.imp_left fun h => (ordersOf_insertLevels _ _).subset h
  | refunded =>
    rw [release_eq]
    exact hmatched
  | filled => exact hmatched

/-- The trades name the makers that are reached. -/
theorem Accepted.tradeMakers {e : EngineInputEvent} (h : Accepted s e o) (id : StreamId) :
    (trades ((process s e id).2.map EngineOutputEvent.payload)).map TradeExecuted.makerUserId =
        (reached s o).map RestingOrder.userId ∧
      (trades ((process s e id).2.map EngineOutputEvent.payload)).map TradeExecuted.makerOrderId =
        (reached s o).map RestingOrder.orderId := by
  rw [h.newTrades, reached, List.map_map, List.map_map]
  exact ⟨map_numbered fun _ _ => rfl, map_numbered fun _ _ => rfl⟩

theorem Accepted.placeFrame {e : EngineInputEvent} (h : Accepted s e o) (id : StreamId) :
    PlaceFrame s o (trades ((process s e id).2.map EngineOutputEvent.payload))
      (process s e id).1 := by
  obtain ⟨t, ht, hcore⟩ := h.state id
  have hquotes := quotes_placed s e.toEnvelopeMeta o
  have hkept : quotes (process s e id).1 = quotes (placedState s e.toEnvelopeMeta o) := by
    simp only [quotes, hcore.markPrice, hcore.lastObserverSeq, hcore.lastTradePrice]
    rw [ht.core]
  rw [hquotes] at hkept
  simp only [quotes, Prod.mk.injEq] at hkept
  obtain ⟨husers, hids⟩ := h.tradeMakers id
  refine ⟨fun u htaker hmakers => ?_, fun x hx hnot => ?_, hkept.1, hkept.2.1, ?_⟩
  · have hmaker : u ∉ (reached s o).map RestingOrder.userId := by
      rw [← husers]
      intro hmem
      obtain ⟨y, hy, hyu⟩ := List.mem_map.mp hmem
      exact hmakers y hy hyu
    have hnot := (matched_affected e.toEnvelopeMeta o u).not.mpr (not_or.mpr ⟨htaker, hmaker⟩)
    have hnew := process_new h.fresh id
    rw [h.dispatch_eq, placeAccepted_eq] at hnew
    calc records (process s e id).1 u
        = records ((matched s e.toEnvelopeMeta o).affected.foldl drafted
            (placedState s e.toEnvelopeMeta o)) u := by
          unfold records
          rw [hnew.balances, hnew.positions]
      _ = records (placedState s e.toEnvelopeMeta o) u := by
          rw [foldl_drafted_records, if_neg hnot]
      _ = records s u := records_placed _ o hnot
  · rw [h.resting id]
    refine mem_placed _ hx fun hmem => ?_
    have hid : x.orderId ∈ (reached s o).map RestingOrder.orderId := List.mem_map_of_mem hmem
    rw [← hids] at hid
    obtain ⟨y, hy, hyx⟩ := List.mem_map.mp hid
    exact hnot y hy hyx
  · rw [hkept.2.2, h.newTrades id, List.getLast?_mapIdx, reached, List.getLast?_map]
    cases (fillsOf s o).getLast? <;> rfl

end Placed

/-! Cancellations -/

theorem released_frame {s : EngineState} {c : CancelOrder} {level : PriceLevel}
    {removed : RestingOrder} (ht : cancelTarget s c = some removed)
    (hlevel : (levelsFor s c.side).find? (fun l => l.price = c.price) = some level)
    (hremoved : level.orders.find? (fun x => x.orderId = c.orderId) = some removed) :
    CancelFrame s c (release (withoutOrder s c level) c.userId removed.margin).1 removed := by
  obtain ⟨-, -, -, huser⟩ := cancelTarget_eq_some ht
  have hid : removed.orderId = c.orderId := by simpa using List.find?_some hremoved
  have hbal : (release (withoutOrder s c level) c.userId removed.margin).1.bal c.userId =
      (s.bal c.userId).release removed.margin := by
    rw [release_eq, bal_set, if_pos rfl, withoutOrder, bal_setLevels]
  refine ⟨?_, ⟨huser, hid⟩, fun u hu => ?_, ?_, ?_, ?_, ?_, ?_⟩
  · rw [release_eq]
    exact withoutOrder_resting hlevel hremoved
  · exact (records_release _ hu).trans (records_setLevels _ _ _)
  · rw [release_eq, withoutOrder]
    cases c.side <;> rfl
  · rw [hbal]
    rfl
  · rw [hbal]
    rfl
  · rw [hbal]
    rfl
  · rw [release_eq, withoutOrder]
    cases c.side <;> exact ⟨rfl, rfl, rfl⟩

/-- Whoever reports a cancellation has taken its order off the book. -/
theorem dispatch_cancelled {s : EngineState} {e : EngineInputEvent} {c : CancelOrder}
    (hc : e.payload = .orderCancel c) {x : OrderCancelled}
    (h : .orderCancelled x ∈ (dispatch s e).2) :
    ∃ removed, CancelFrame s c (dispatch s e).1 removed := by
  have hout := dispatch_outcome s e
  generalize dispatch s e = out at hout h
  cases hout with
  | missed => simp at h
  | cancelled c' hp level removed ht hlevel hremoved =>
    obtain rfl := InputPayload.orderCancel.inj (hp.symm.trans hc)
    exact ⟨removed, released_frame ht hlevel hremoved⟩
  | opened p hp | deposited p hp | rejected o hp | placed o hp | stale p hp | swept p hp =>
    rw [hc] at hp
    cases hp

theorem CancelFrame.processed {s : EngineState} {e : EngineInputEvent} {c : CancelOrder}
    {removed : RestingOrder} (h : CancelFrame s c (dispatch s e).1 removed)
    (hnew : ¬ alreadyApplied s e = true) (id : StreamId) :
    CancelFrame s c (process s e id).1 removed := by
  have hcore := process_new hnew id
  refine ⟨?_, h.own, fun u hu => ?_, ?_, ?_, ?_, ?_, ?_⟩
  · have hresting : (process s e id).1.resting = (dispatch s e).1.resting := by
      unfold EngineState.resting
      rw [hcore.bids, hcore.asks]
    rw [hresting]
    exact h.resting
  · refine Eq.trans ?_ (h.others u hu)
    unfold records
    rw [hcore.balances, hcore.positions]
  · exact hcore.positions.trans h.position
  · rw [hcore.bal, h.total]
  · rw [hcore.bal, h.locked]
  · rw [hcore.bal, h.free]
  · rw [hcore.markPrice, hcore.lastTradePrice, hcore.lastObserverSeq]
    exact h.prices

/-! Any event in any state -/

theorem dispatched_of_output {s : EngineState} {e : EngineInputEvent} {id : StreamId}
    {d : DraftOutput} (h : d ∈ (process s e id).2.map EngineOutputEvent.payload) :
    ¬ alreadyApplied s e = true ∧ d ∈ (dispatch s e).2 := by
  have hnew : ¬ alreadyApplied s e = true := fun ha => by
    rw [process_applied ha] at h
    cases h
  rw [process_payloads, reduce_of_new hnew] at h
  exact ⟨hnew, h⟩

theorem mem_reports {outs : List DraftOutput} {r : OrderAccepted} (h : .orderAccepted r ∈ outs) :
    r ∈ reports outs := List.mem_filterMap.mpr ⟨_, h, rfl⟩

/-- A command that is rejected changes the bookkeeping only. An order that is accepted
leaves the users and the resting orders that its trades do not name, and the prices but the
last one. A cancellation takes one order of the user off the book and moves its margin. -/
theorem commands_atomic (s : EngineState) (e : EngineInputEvent) (id : StreamId) :
    let t := (process s e id).1
    let outs := (process s e id).2.map EngineOutputEvent.payload
    ((∃ r, .orderRejected r ∈ outs) → OnlyBookkeeping s t) ∧
      (∀ o, e.payload = .orderPlace o → (∃ r, .orderAccepted r ∈ outs) →
        PlaceFrame s o (trades outs) t) ∧
      ∀ c, e.payload = .orderCancel c → (∃ r, .orderCancelled r ∈ outs) →
        ∃ removed, CancelFrame s c t removed ∧
          (OnGrid (s.bal c.userId) removed →
            MovedExactly (s.bal c.userId) removed (t.bal c.userId)) := by
  dsimp only
  refine ⟨?_, ?_, ?_⟩
  · rintro ⟨r, hr⟩
    obtain ⟨-, hr⟩ := dispatched_of_output hr
    exact process_bookkeeping (dispatch_rejected hr) id
  · rintro o ho ⟨r, hr⟩
    have hacc := (accepted_iff_reports ho id).mpr (List.ne_nil_of_mem (mem_reports hr))
    exact hacc.placeFrame id
  · rintro c hc ⟨r, hr⟩
    obtain ⟨hnew, hr⟩ := dispatched_of_output hr
    obtain ⟨removed, hframe⟩ := dispatch_cancelled hc hr
    have hprocessed := hframe.processed hnew id
    exact ⟨removed, hprocessed, hprocessed.exact⟩

open Fixture in
/-- A rejection, an order that takes part of a maker, and the cancellation of the maker. -/
theorem commands_atomic_maker :
    let s := (run (createState MARKET) (numbered [user "m" 1000, user "t" 1000,
      place "m" "a1" .Ask .LIMIT 100 2 1 200])).1
    let o : PlaceOrder := ⟨"t", "b1", .Bid, .LIMIT, 1, 100, 1, 100⟩
    let c : CancelOrder := ⟨"m", "a1", .Ask, 100⟩
    let accepted := process s (evt "cmd_b1" (.orderPlace o)) ⟨9, 0⟩
    OnlyBookkeeping s (process s (place "t" "b1" .Bid .LIMIT 100 1 1 5000) ⟨9, 0⟩).1 ∧
      PlaceFrame s o (trades (accepted.2.map EngineOutputEvent.payload)) accepted.1 ∧
      ∃ removed, CancelFrame s c (process s (evt "cmd_c1" (.orderCancel c)) ⟨9, 0⟩).1 removed := by
  intro s o c accepted
  have hrejected := (commands_atomic s (place "t" "b1" .Bid .LIMIT 100 1 1 5000) ⟨9, 0⟩).1
  have haccepted := (commands_atomic s (evt "cmd_b1" (.orderPlace o)) ⟨9, 0⟩).2.1
  have hcancelled := (commands_atomic s (evt "cmd_c1" (.orderCancel c)) ⟨9, 0⟩).2.2
  refine ⟨hrejected ⟨⟨"b1", "t", "insufficient free balance"⟩, by decide +kernel⟩,
    haccepted o rfl ⟨⟨"b1", "t", .FILLED, 1, 0, 100⟩, by decide +kernel⟩, ?_⟩
  obtain ⟨removed, hframe, -⟩ :=
    hcancelled c rfl ⟨⟨"a1", "m", 200⟩, by decide +kernel⟩
  exact ⟨removed, hframe⟩

end Engine

end Perps
