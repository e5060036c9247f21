import Perps.Domain.Fills
import Perps.Domain.Reachable
import Perps.Domain.Sweep

/-! The order book of every reachable state: both sides in shape, sequence
numbers distinct and within the state's own, and no crossed prices. -/

namespace Perps

open Lib

/-- The resting orders of both sides. -/
def EngineState.resting (s : EngineState) : List RestingOrder := ordersOf s.bids ++ ordersOf s.asks

/-- The levels of `side` and of the other side do not cross. -/
def Apart (side : Side) (levels others : List PriceLevel) : Prop :=
  ∀ l ∈ levels, ∀ m ∈ others, betterFirst (maker_side side) l.price m.price

structure BookOK (s : EngineState) : Prop where
  bids : SideOK .Bid s.bids
  asks : SideOK .Ask s.asks
  distinct : (s.resting.map RestingOrder.seq).Nodup
  bounded : ∀ x ∈ s.resting, x.seq ≤ s.seq
  uncrossed : ∀ b ∈ s.bids, ∀ a ∈ s.asks, b.price < a.price

namespace BookOK

variable {s : EngineState}

theorem side (h : BookOK s) (side : Side) : SideOK side (levelsFor s side) := by
  cases side
  · exact h.bids
  · exact h.asks

theorem apart (h : BookOK s) (side : Side) :
    Apart side (levelsFor s side) (levelsFor s (maker_side side)) := by
  cases side
  · intro b hb a ha
    exact decide_eq_true (h.uncrossed b hb a ha)
  · intro a ha b hb
    exact decide_eq_true (h.uncrossed b hb a ha)

theorem resting_perm (s : EngineState) (side : Side) :
    s.resting.Perm (ordersOf (levelsFor s side) ++ ordersOf (levelsFor s (maker_side side))) := by
  cases side
  · exact .refl _
  · exact List.perm_append_comm

theorem resting_of_side (s : EngineState) {side : Side} {x : RestingOrder}
    (hx : x ∈ ordersOf (levelsFor s side)) : x ∈ s.resting :=
  (resting_perm s side).mem_iff.mpr (List.mem_append_left _ hx)

theorem nodup (h : BookOK s) (side : Side) : (ordersOf (levelsFor s side)).Nodup :=
  ((resting_perm s side).nodup_iff.mp h.distinct.of_map).of_append_left

theorem margin_nonneg (h : BookOK s) : ∀ x ∈ s.resting, 0 ≤ x.margin := fun x hx => by
  rcases List.mem_append.mp hx with hx | hx
  · exact (h.bids.order hx).margin_nonneg
  · exact (h.asks.order hx).margin_nonneg

/-- The invariant, said of a side and the other one. -/
theorem of_sides (sd : Side) (hown : SideOK sd (levelsFor s sd))
    (hother : SideOK (maker_side sd) (levelsFor s (maker_side sd)))
    (hd : ((ordersOf (levelsFor s sd) ++ ordersOf (levelsFor s (maker_side sd))).map
      RestingOrder.seq).Nodup)
    (hb : ∀ x ∈ ordersOf (levelsFor s sd) ++ ordersOf (levelsFor s (maker_side sd)), x.seq ≤ s.seq)
    (ha : Apart sd (levelsFor s sd) (levelsFor s (maker_side sd))) : BookOK s := by
  have hperm := resting_perm s sd
  have hdistinct := (hperm.map RestingOrder.seq).nodup_iff.mpr hd
  have hbounded : ∀ x ∈ s.resting, x.seq ≤ s.seq := fun x hx => hb x (hperm.subset hx)
  cases sd
  · exact ⟨hown, hother, hdistinct, hbounded, fun b hb a hm => of_decide_eq_true (ha b hb a hm)⟩
  · exact ⟨hother, hown, hdistinct, hbounded, fun b hb a hm => of_decide_eq_true (ha a hm b hb)⟩

/-- Only the levels and the sequence number matter. -/
theorem congr {t : EngineState} (h : BookOK s) (hb : t.bids = s.bids) (ha : t.asks = s.asks)
    (hs : s.seq ≤ t.seq) : BookOK t := by
  have hr : t.resting = s.resting := by rw [EngineState.resting, hb, ha]; rfl
  refine ⟨hb ▸ h.bids, ha ▸ h.asks, hr ▸ h.distinct, fun x hx => ?_, ?_⟩
  · rw [hr] at hx
    exact (h.bounded x hx).trans hs
  · rw [hb, ha]
    exact h.uncrossed

/-- Thinning one side keeps the book in shape. -/
theorem thinned {t : EngineState} (h : BookOK s) (sd : Side)
    (hown : levelsFor t sd = levelsFor s sd)
    (hother : Thinned (levelsFor t (maker_side sd)) (levelsFor s (maker_side sd)))
    (hs : s.seq ≤ t.seq) : BookOK t := by
  have hsub : ((ordersOf (levelsFor t (maker_side sd))).map RestingOrder.seq).Sublist
      ((ordersOf (levelsFor s (maker_side sd))).map RestingOrder.seq) :=
    map_sublist_of_thinned (fun _ _ hr => Reduced.seq hr) hother.orders
  have hperm := resting_perm s sd
  have hd := (hperm.map RestingOrder.seq).nodup_iff.mp h.distinct
  rw [List.map_append] at hd
  refine of_sides sd (hown ▸ h.side sd) ((h.side _).thinned hother) ?_ ?_ ?_
  · rw [hown, List.map_append]
    exact hd.sublist ((List.Sublist.refl _).append hsub)
  · intro x hx
    rcases List.mem_append.mp hx with hx | hx
    · rw [hown] at hx
      exact (h.bounded x (hperm.mem_iff.mpr (List.mem_append_left _ hx))).trans hs
    · obtain ⟨y, hy, hxy⟩ := exists_of_mem_thinned hother.orders hx
      rw [hxy.seq]
      exact (h.bounded y (hperm.mem_iff.mpr (List.mem_append_right _ hy))).trans hs
  · intro l hl m hm
    obtain ⟨m', hm', hmm⟩ := exists_of_mem_thinned hother hm
    rw [hmm.price]
    exact h.apart sd l (hown ▸ hl) m' hm'

/-- Inserting a young order that does not cross keeps the book in shape. -/
theorem inserted {t : EngineState} (h : BookOK s) (order : RestingOrder)
    (hown : Inserted order (levelsFor s order.side) (levelsFor t order.side))
    (hother : levelsFor t (maker_side order.side) = levelsFor s (maker_side order.side))
    (ho : OrderOK order.side order.price order) (hseq : s.seq < order.seq)
    (hs : order.seq ≤ t.seq)
    (hcross : ∀ l ∈ levelsFor s (maker_side order.side),
      betterFirst (maker_side order.side) order.price l.price) : BookOK t := by
  have hperm := resting_perm s order.side
  have hyoung : ∀ x ∈ ordersOf (levelsFor s order.side) ++
      ordersOf (levelsFor s (maker_side order.side)), x.seq < order.seq := fun x hx =>
    (h.bounded x (hperm.mem_iff.mpr hx)).trans_lt hseq
  have hins := hown.orders_perm.append_right (ordersOf (levelsFor s (maker_side order.side)))
  refine of_sides order.side ?_ (hother ▸ h.side _) ?_ ?_ ?_
  · exact (h.side _).inserted hown ho fun x hx => hyoung x (List.mem_append_left _ hx)
  · rw [hother, (hins.map RestingOrder.seq).nodup_iff, List.cons_append, List.map_cons,
      List.nodup_cons]
    refine ⟨fun hm => ?_, (hperm.map RestingOrder.seq).nodup_iff.mp h.distinct⟩
    obtain ⟨x, hx, hxo⟩ := List.mem_map.mp hm
    exact (hyoung x hx).ne hxo
  · intro x hx
    rw [hother, hins.mem_iff, List.cons_append, List.mem_cons] at hx
    rcases hx with rfl | hx
    · exact hs
    · exact (hyoung x hx).le.trans hs
  · intro l hl m hm
    rw [hother] at hm
    rcases hown.prices hl with hp | ⟨l', hl', hp⟩
    · rw [hp]
      exact hcross m hm
    · rw [hp]
      exact h.apart _ l' hl' m hm

end BookOK

namespace Engine

theorem bookOK_createState (market : MarketConfig) : BookOK (createState market) :=
  ⟨.nil _, .nil _, .nil, by simp [createState, EngineState.resting], by simp [createState]⟩

theorem sameCore_book {s t : EngineState} (hc : SameCore s t) (h : BookOK s) : BookOK t :=
  h.congr hc.bids hc.asks hc.seq

theorem sameUpToOrder_book {s t : EngineState} (hc : SameUpToOrder s t) (h : BookOK s) : BookOK t := by
  rw [hc.rest]
  exact h.congr rfl rfl le_rfl

theorem sameAccounts_book {s t : EngineState} (hc : SameAccounts s t) (h : BookOK s) : BookOK t := by
  rw [hc.core]
  exact h.congr rfl rfl le_rfl

/-- What does not cross the best level crosses none. -/
theorem not_crosses {o : PlaceOrder} (ht : o.orderType = .LIMIT) {levels : List PriceLevel}
    (h : SideOK (maker_side o.side) levels)
    (hhead : ∀ l ∈ levels.head?, ¬ crosses o l.price = true) {l : PriceLevel} (hl : l ∈ levels) :
    betterFirst (maker_side o.side) o.price l.price := by
  have hprice (p : ℚ) (hp : ¬ crosses o p = true) : betterFirst (maker_side o.side) o.price p := by
    unfold crosses at hp
    rw [ht] at hp
    cases hs : o.side <;> simp only [hs, decide_eq_true_eq] at hp ⊢ <;>
      simp only [maker_side, betterFirst, decide_eq_true_eq] <;> linarith
  cases levels with
  | nil => cases hl
  | cons m ms =>
    have hm := hprice m.price (hhead m rfl)
    rcases List.mem_cons.mp hl with rfl | hl
    · exact hm
    · exact betterFirst_trans hm ((List.pairwise_cons.mp h.sorted).1 l hl)

theorem restingOrder_ok (e : EnvelopeMeta) {o : PlaceOrder} (ho : o.Valid) {remaining : ℚ}
    (hr : remaining > 1e-9) (seq : ℕ) :
    OrderOK o.side o.price (restingOrder e o remaining seq) := by
  refine ⟨rfl, rfl, hr, q_nonneg ?_, grid_q _⟩
  have : (0 : ℚ) < 1e-9 := by norm_num
  exact mul_nonneg (by linarith) (div_nonneg ho.2.2.2.2.2.le ho.2.2.1.le)

theorem bookOK_matched {s : EngineState} (h : BookOK s) (e : EnvelopeMeta) (o : PlaceOrder) :
    BookOK (matched s e o).state := by
  refine h.thinned o.side (matched_own s e o) ?_ ?_
  · rw [matched_maker]
    exact sweepLevels_thinned o (h.side _) _
  · rw [matched_seq]
    exact Nat.le_add_right _ _

/-- The loops end where the rest of a limit order does not cross. -/
theorem bookOK_remainder {e : EnvelopeMeta} {o : PlaceOrder} (ho : o.Valid) {m : Matching}
    (hm : BookOK m.state) (hexit : ¬ OuterCond o m) {r : EngineState × List DraftOutput × OrderStatus}
    (h : Remainder e o m r) : BookOK r.1 := by
  cases h with
  | rests ht hr =>
    have hbest : ∀ l ∈ (levelsFor m.state (maker_side o.side)).head?, ¬ crosses o l.price = true :=
      fun l hl hc => hexit ⟨hr, l, hl, hc⟩
    refine hm.inserted (restingOrder e o m.remaining (m.state.seq + 1)) ?_ ?_
      (restingOrder_ok e ho hr _) (Nat.lt_succ_self _) ?_ fun l hl => ?_
    · rw [insertResting_own, nextSeq_levels]
      exact insertLevels_inserted (hm.side o.side).sorted
    · rw [insertResting_other, nextSeq_levels]
    · rw [insertResting_seq]
      exact le_rfl
    · exact not_crosses ht (hm.side _) hbest hl
  | refunded ht hr =>
    rw [release_eq]
    exact hm.congr rfl rfl le_rfl
  | filled hr => exact hm

theorem bookOK_placed {s : EngineState} (h : BookOK s) (e : EnvelopeMeta) {o : PlaceOrder}
    (ho : o.Valid) : BookOK (placedState s e o) :=
  bookOK_remainder ho (bookOK_matched h e o) (matched_exit s e o)
    (settleRemainder_cases e o (matched s e o))

theorem bookOK_cancelled {s : EngineState} (h : BookOK s) {c : CancelOrder} {level : PriceLevel}
    (hlevel : (levelsFor s c.side).find? (fun l => l.price = c.price) = some level) :
    BookOK (withoutOrder s c level) := by
  have hmm : maker_side (maker_side c.side) = c.side := by cases c.side <;> rfl
  have hother : levelsFor (withoutOrder s c level) (maker_side c.side) =
      levelsFor s (maker_side c.side) := by
    unfold withoutOrder
    cases c.side <;> rfl
  refine h.thinned (maker_side c.side) hother ?_ (le_of_eq ?_)
  · rw [hmm, withoutOrder, levelsFor_setLevels]
    exact setOrders_thinned (h.side c.side) hlevel List.eraseP_sublist
  · unfold withoutOrder
    cases c.side <;> rfl

theorem insertResting_resting {s : EngineState} (order : RestingOrder)
    (h : SideOK order.side (levelsFor s order.side)) :
    (insertResting s order).resting.Perm (order :: s.resting) := by
  have hins := (insertLevels_inserted h.sorted).orders_perm
  have h1 := BookOK.resting_perm (insertResting s order) order.side
  rw [insertResting_own, insertResting_other] at h1
  exact h1.trans ((hins.append_right _).trans
    ((BookOK.resting_perm s order.side).symm.cons order))

/-- The rest of a limit order that comes to rest, if there is one. -/
def ownRest (e : EnvelopeMeta) (o : PlaceOrder) (m : Matching) : List RestingOrder :=
  if o.orderType = .LIMIT ∧ m.remaining > 1e-9 then
    [restingOrder e o m.remaining (m.state.seq + 1)]
  else []

theorem remainder_resting {e : EnvelopeMeta} {o : PlaceOrder} {m : Matching} (hm : BookOK m.state)
    {r : EngineState × List DraftOutput × OrderStatus} (h : Remainder e o m r) :
    r.1.resting.Perm (ownRest e o m ++ m.state.resting) := by
  cases h with
  | rests ht hr =>
    have hown : ownRest e o m = [restingOrder e o m.remaining (m.state.seq + 1)] :=
      if_pos ⟨ht, hr⟩
    rw [hown]
    exact insertResting_resting _ (by rw [nextSeq_levels]; exact hm.side _)
  | refunded ht hr =>
    have hown : ownRest e o m = [] := if_neg fun hc => by simp [ht] at hc
    rw [hown, release_eq]
    exact .refl _
  | filled hr =>
    have hown : ownRest e o m = [] := if_neg fun hc => hr hc.2
    rw [hown]
    exact .refl _

/-- What rests after an accepted order: what its fills leave, and its own rest. -/
theorem placed_resting {s : EngineState} (h : BookOK s) (e : EnvelopeMeta) (o : PlaceOrder) :
    (placedState s e o).resting.Perm
      (ownRest e o (matched s e o) ++ (matched s e o).state.resting) :=
  remainder_resting (bookOK_matched h e o) (settleRemainder_cases e o (matched s e o))

theorem bal_setLevels (s : EngineState) (side : Side) (levels : List PriceLevel) (v : String) :
    (setLevels s side levels).bal v = s.bal v := by
  cases side <;> rfl

theorem matched_bal (s : EngineState) (e : EnvelopeMeta) (o : PlaceOrder) (v : String) :
    (matched s e o).state.bal v = (filledOrder s e o).state.bal v := by
  rw [(matched_spec s e o).state]
  exact bal_setLevels _ _ _ v

theorem matched_pos (s : EngineState) (e : EnvelopeMeta) (o : PlaceOrder) (v : String) :
    (matched s e o).state.pos v = (filledOrder s e o).state.pos v := by
  rw [(matched_spec s e o).state]
  exact pos_setLevels _ _ _ v

theorem Accepted.resting {s : EngineState} {e : EngineInputEvent} {o : PlaceOrder}
    (hacc : Accepted s e o) (id : StreamId) :
    (process s e id).1.resting = (placedState s e.toEnvelopeMeta o).resting :=
  congrArg₂ (fun bids asks => ordersOf bids ++ ordersOf asks) (hacc.levels id .Bid)
    (hacc.levels id .Ask)

theorem matched_resting_perm (s : EngineState) (e : EnvelopeMeta) (o : PlaceOrder) :
    (matched s e o).state.resting.Perm (ordersOf (levelsFor s o.side) ++
      ordersOf (sweepLevels o (levelsFor s (maker_side o.side)) o.quantity)) := by
  have h := BookOK.resting_perm (matched s e o).state o.side
  rwa [matched_own, matched_maker] at h

/-- What an accepted order leaves of the book rested before, or is what fills left of it. -/
theorem matched_reduced {s : EngineState} (h : BookOK s) (e : EnvelopeMeta) (o : PlaceOrder)
    {x : RestingOrder} (hx : x ∈ (matched s e o).state.resting) : ∃ y ∈ s.resting, Reduced x y := by
  rcases List.mem_append.mp ((matched_resting_perm s e o).mem_iff.mp hx) with hx | hx
  · exact ⟨x, BookOK.resting_of_side s hx, .same x⟩
  · have hthin := (sweepLevels_thinned o (h.side (maker_side o.side)) o.quantity).orders
    obtain ⟨y, hy, hxy⟩ := exists_of_mem_thinned hthin hx
    exact ⟨y, BookOK.resting_of_side s hy, hxy⟩

/-- Under a new id the resting orders keep distinct ids. -/
theorem placed_resting_distinct {s : EngineState} (h : BookOK s)
    (hids : (s.resting.map RestingOrder.orderId).Nodup) (e : EnvelopeMeta) {o : PlaceOrder}
    (hnew : ∀ x ∈ s.resting, x.orderId ≠ o.orderId) :
    ((placedState s e o).resting.map RestingOrder.orderId).Nodup := by
  have hids := ((BookOK.resting_perm s o.side).map RestingOrder.orderId).nodup_iff.mp hids
  have hthin := (sweepLevels_thinned o (h.side (maker_side o.side)) o.quantity).orders
  have hsub := map_sublist_of_thinned (fun _ _ hr => Reduced.orderId hr) hthin
  have hrest := (placed_resting h e o).trans ((matched_resting_perm s e o).append_left _)
  rw [(hrest.map RestingOrder.orderId).nodup_iff, List.map_append, List.map_append]
  rw [List.map_append] at hids
  have hsub' := (List.Sublist.refl ((ordersOf (levelsFor s o.side)).map RestingOrder.orderId)).append
    hsub
  refine List.nodup_append'.mpr ⟨?_, hids.sublist hsub', ?_⟩
  · unfold ownRest
    split_ifs <;> simp
  · intro id hown hother
    -- the other ids are those of orders that rested before
    have hid : id = o.orderId := by
      unfold ownRest at hown
      split_ifs at hown
      · simpa [restingOrder] using hown
      · cases hown
    have hmem := hsub'.subset hother
    rw [← List.map_append] at hmem
    obtain ⟨x, hx, hxid⟩ := List.mem_map.mp hmem
    exact hnew x ((BookOK.resting_perm s o.side).mem_iff.mpr hx) (hxid.trans hid)

/-- The quantities that rest stay on the grid. -/
theorem placed_resting_grid (e : EnvelopeMeta) (o : PlaceOrder) {s : EngineState} (h : BookOK s)
    (hgrid : ∀ x ∈ s.resting, Grid x.remaining) (hQ : Grid o.quantity) :
    ∀ x ∈ (placedState s e o).resting, Grid x.remaining := by
  intro x hx
  rcases List.mem_append.mp ((placed_resting h e o).mem_iff.mp hx) with hx | hx
  · unfold ownRest at hx
    split_ifs at hx
    · rw [List.mem_singleton.mp hx]
      exact matched_grid s e o hQ
    · cases hx
  · obtain ⟨y, hy, hxy⟩ := matched_reduced h e o hx
    exact hxy.grid (hgrid y hy)

theorem fillsOf_bounds {s : EngineState} (h : BookOK s) {o : PlaceOrder} {f : RestingOrder × ℚ}
    (hf : f ∈ fillsOf s o) : 0 < f.2 ∧ f.2 ≤ f.1.remaining :=
  hits_bounds (fun _ hx => ((h.side _).order (crossing_subset hx)).live) hf

/-- A cancellation takes the order off the book. -/
theorem withoutOrder_resting {s : EngineState} {c : CancelOrder} {level : PriceLevel}
    {removed : RestingOrder}
    (hlevel : (levelsFor s c.side).find? (fun l => l.price = c.price) = some level)
    (hremoved : level.orders.find? (fun x => x.orderId = c.orderId) = some removed) :
    s.resting.Perm (removed :: (withoutOrder s c level).resting) := by
  have hperm := setOrders_perm hlevel (eraseP_perm hremoved)
  have hown : levelsFor (withoutOrder s c level) c.side = removeEmptyLevel (setOrders c.price
      (level.orders.eraseP fun x => x.orderId = c.orderId) (levelsFor s c.side)) c.price :=
    levelsFor_setLevels _ _ _
  have hother : levelsFor (withoutOrder s c level) (maker_side c.side) =
      levelsFor s (maker_side c.side) := by
    unfold withoutOrder
    cases c.side <;> rfl
  have h1 := BookOK.resting_perm (withoutOrder s c level) c.side
  rw [hown, hother] at h1
  exact (BookOK.resting_perm s c.side).trans ((hperm.append_right _).trans (h1.symm.cons removed))

/-- An event that accepts no order puts nothing on the book. -/
theorem process_resting {s : EngineState} {e : EngineInputEvent} (he : engineInputEventSchema e)
    (hnot : ∀ o, ¬ Accepted s e o) (id : StreamId) :
    ∃ gone, s.resting.Perm (gone ++ (process s e id).1.resting) := by
  have hsame {t u : EngineState} (hb : u.bids = t.bids) (ha : u.asks = t.asks) :
      u.resting = t.resting := by
    rw [EngineState.resting, hb, ha]
    rfl
  by_cases ha : alreadyApplied s e = true
  · refine ⟨[], ?_⟩
    rw [process_applied ha]
    exact .refl _
  have hcore := process_new ha id
  rw [hsame hcore.bids hcore.asks]
  have heff := dispatch_effect s e he
  generalize (dispatch s e).1 = t at heff
  cases heff with
  | unchanged => exact ⟨[], .refl _⟩
  | opened h =>
    refine ⟨[], ?_⟩
    rw [h.core]
    exact .refl _
  | credited u amount _ _ h =>
    refine ⟨[], ?_⟩
    rw [h.core, credit_eq]
    exact .refl _
  | placed o hp hr hl _ => exact absurd ⟨hp, ha, hr, hl⟩ (hnot o)
  | cancelled c level removed _ hlevel hremoved _ h =>
    refine ⟨[removed], ?_⟩
    rw [h.core, release_eq]
    exact withoutOrder_resting hlevel hremoved
  | marked p _ _ h =>
    refine ⟨[], ?_⟩
    rw [h.core, markedState, liquidationSweep_core]
    exact .refl _

/-- What rests after an event rested before, or is what fills left of it, or is the rest of
the order that the event placed. -/
theorem process_rested {s : EngineState} (h : BookOK s) {e : EngineInputEvent}
    (he : engineInputEventSchema e) (id : StreamId) {x : RestingOrder}
    (hx : x ∈ (process s e id).1.resting) : (∃ y ∈ s.resting, Reduced x y) ∨
      ∃ o, Accepted s e o ∧ x ∈ ownRest e.toEnvelopeMeta o (matched s e.toEnvelopeMeta o) := by
  by_cases hacc : ∃ o, Accepted s e o
  · obtain ⟨o, hacc⟩ := hacc
    rw [hacc.resting, (placed_resting h _ o).mem_iff, List.mem_append] at hx
    rcases hx with hx | hx
    · exact Or.inr ⟨o, hacc, hx⟩
    · exact Or.inl (matched_reduced h _ o hx)
  · obtain ⟨gone, hgone⟩ := process_resting he (not_exists.mp hacc) id
    exact Or.inl ⟨x, hgone.mem_iff.mpr (List.mem_append_right _ hx), .same x⟩

/-- Every effect keeps the book in shape. -/
theorem bookOK_effect {s t : EngineState} {e : EngineInputEvent} (he : engineInputEventSchema e)
    (heff : Effect s e t) (h : BookOK s) : BookOK t := by
  have hp := he.2
  cases heff with
  | unchanged => exact h
  | opened hsame => exact sameAccounts_book hsame h
  | credited u amount _ _ hsame =>
    refine sameAccounts_book hsame ?_
    rw [credit_eq]
    exact h.congr rfl rfl le_rfl
  | placed o ho _ _ hsame =>
    rw [ho] at hp
    exact sameAccounts_book hsame (bookOK_placed h _ hp)
  | cancelled c level removed _ hlevel _ _ hsame =>
    refine sameAccounts_book hsame ?_
    rw [release_eq]
    exact (bookOK_cancelled h hlevel).congr rfl rfl le_rfl
  | marked p _ _ hsame =>
    refine sameAccounts_book hsame ?_
    rw [markedState, liquidationSweep_core]
    exact h.congr rfl rfl le_rfl

theorem bookOK_process {s : EngineState} (h : BookOK s) {e : EngineInputEvent}
    (he : engineInputEventSchema e) (id : StreamId) : BookOK (process s e id).1 := by
  by_cases ha : alreadyApplied s e = true
  · rw [process_applied ha]
    exact sameCore_book (sameCore_lastInputId s id) h
  · exact sameCore_book (process_new ha id) (bookOK_effect he (dispatch_effect s e he) h)

/-- The book of every state that the engine can reach, rebuilt from snapshots
any number of times. -/
theorem reachable_bookOK {market : MarketConfig} {s : EngineState}
    (h : Reachable engineInputEventSchema market s) : BookOK s :=
  reachable_invariant (fun _ he => he) (bookOK_createState market)
    (fun _ _ => sameCore_book) (fun _ _ _ => bookOK_effect)
    (fun _ _ => sameUpToOrder_book) h

/-- The invariant, spelt out. -/
structure WellFormedBook (s : EngineState) : Prop where
  bids_decreasing : s.bids.Pairwise fun l m => l.price > m.price
  asks_increasing : s.asks.Pairwise fun l m => l.price < m.price
  no_level_empty : ∀ side, ∀ l ∈ levelsFor s side, l.orders ≠ []
  orders_fit : ∀ side, ∀ l ∈ levelsFor s side, ∀ x ∈ l.orders,
    x.price = l.price ∧ x.side = side ∧ 1e-9 < x.remaining ∧ 0 ≤ x.margin
  queues_by_seq : ∀ side, ∀ l ∈ levelsFor s side, l.orders.Pairwise fun x y => x.seq < y.seq
  seqs_distinct : (s.resting.map RestingOrder.seq).Nodup
  seqs_bounded : ∀ x ∈ s.resting, x.seq ≤ s.seq
  uncrossed : ∀ b ∈ bestPrice s .Bid, ∀ a ∈ bestPrice s .Ask, b < a

theorem bookOK_wellFormed {s : EngineState} (h : BookOK s) : WellFormedBook s where
  bids_decreasing := h.bids.sorted.imp of_decide_eq_true
  asks_increasing := h.asks.sorted.imp of_decide_eq_true
  no_level_empty side l hl := ((h.side side).levels l hl).nonempty
  orders_fit side l hl x hx :=
    have hx := ((h.side side).levels l hl).orders x hx
    ⟨hx.price_eq, hx.side_eq, hx.live, hx.margin_nonneg⟩
  queues_by_seq side l hl := ((h.side side).levels l hl).fifo
  seqs_distinct := h.distinct
  seqs_bounded := h.bounded
  uncrossed b hb a ha := by
    obtain ⟨l, hl, rfl⟩ := Option.map_eq_some_iff.mp hb
    obtain ⟨m, hm, rfl⟩ := Option.map_eq_some_iff.mp ha
    exact h.uncrossed l (List.mem_of_mem_head? hl) m (List.mem_of_mem_head? hm)

/-- The book stays well formed in every run, rebuilt from snapshots any number
of times. -/
theorem book_well_formed {market : MarketConfig} {s : EngineState}
    (h : Reachable engineInputEventSchema market s) : WellFormedBook s :=
  bookOK_wellFormed (reachable_bookOK h)

open Fixture in
/-- A taker that leaves part of a level and then comes to rest on its own side. -/
theorem book_well_formed_partial_fill :
    WellFormedBook (run (createState MARKET) (numbered
      [user "m" 1000000, user "t" 1000000, place "m" "a1" .Ask .LIMIT 100 2 1 200,
        place "m" "a2" .Ask .LIMIT 100 4 1 400, place "m" "a3" .Ask .LIMIT 102 1 1 102,
        place "t" "b1" .Bid .LIMIT 101 3 1 303, place "t" "b2" .Bid .LIMIT 99 2 1 198])).1 :=
  book_well_formed (reachable_run .init (by decide +kernel))

end Engine

end Perps
