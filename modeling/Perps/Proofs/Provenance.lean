import Perps.Proofs.AccountEvents
import Perps.Proofs.BookInvariant
import Perps.Proofs.LiquidationSweep

/-! Where the outputs come from. If every command names a user who is known and an order
that is his, so does every output; and a trade is one that the two orders allow, as they
were placed. -/

namespace Perps

open Lib Engine

/-- Who is known, which orders are whose, and what was placed, in whole units. -/
structure Registry where
  knows : String → Prop
  owns : String → String → Prop
  placed : PlaceOrder → Prop
  knows_owner : ∀ {orderId userId}, owns orderId userId → knows userId
  owns_placed : ∀ {o}, placed o → owns o.orderId o.userId
  whole : ∀ {o}, placed o → Lib.OnGrid 1 o.quantity

namespace Registry

variable (g : Registry)

def Admits : InputPayload → Prop
  | .userCreated p => g.knows p.userId
  | .balanceDeposited p => g.knows p.userId
  | .orderPlace o => g.placed o
  | .orderCancel c => g.owns c.orderId c.userId
  | .indexPriceUpdated _ => True

/-- A resting order is what is left of a limit order that was placed. -/
structure Backs (x : RestingOrder) (o : PlaceOrder) : Prop where
  placed : g.placed o
  orderType : o.orderType = .LIMIT
  orderId : x.orderId = o.orderId
  userId : x.userId = o.userId
  side : x.side = o.side
  price : x.price = o.price
  remaining : x.remaining ≤ o.quantity
  whole : Lib.OnGrid 1 x.remaining

/-- The trade as seen by the orders it names. -/
structure Allows (t : TradeExecuted) (maker taker : PlaceOrder) : Prop where
  maker_placed : g.placed maker
  taker_placed : g.placed taker
  makerOrderId : t.makerOrderId = maker.orderId
  makerUserId : t.makerUserId = maker.userId
  takerOrderId : t.takerOrderId = taker.orderId
  takerUserId : t.takerUserId = taker.userId
  maker_limit : maker.orderType = .LIMIT
  opposite : maker.side = maker_side taker.side
  price : t.price = maker.price
  crosses : crosses taker maker.price = true
  positive : 0 < t.quantity
  maker_quantity : t.quantity ≤ maker.quantity
  taker_quantity : t.quantity ≤ taker.quantity
  whole : Lib.OnGrid 1 t.quantity

def Vouches : DraftOutput → Prop
  | .orderAccepted p => g.owns p.orderId p.userId
  | .orderRejected p => g.owns p.orderId p.userId
  | .orderCancelled p => g.owns p.orderId p.userId
  | .tradeExecuted t => ∃ maker taker, g.Allows t maker taker
  | .balanceUpdated p => g.knows p.userId
  | .positionUpdated p => g.knows p.userId
  | .positionLiquidated p => g.knows p.userId
  | .orderBookDelta _ | .orderBookSnapshot _ | .commandRejected _ => True

/-- The engine holds nothing but what is registered. -/
structure Holds (s : EngineState) : Prop where
  book : BookOK s
  keys : KeysOK s
  resting : ∀ x ∈ s.resting, ∃ o, g.Backs x o
  balances : ∀ u, (s.balances.get? u).isSome → g.knows u
  positions : ∀ u, (s.positions.get? u).isSome → g.knows u

end Registry

/-! Whole quantities -/

theorem grid_of_whole {x : ℚ} (h : Lib.OnGrid 1 x) : Grid x := by
  obtain ⟨k, rfl⟩ := h
  rw [div_one]
  exact Grid.of_int k

theorem q_of_whole {x : ℚ} (h : Lib.OnGrid 1 x) : q x = x := q_of_grid (grid_of_whole h)

namespace Engine

/-- Whole orders are filled, and left, in whole units. -/
theorem hits_whole {os : List RestingOrder} (hos : ∀ x ∈ os, Lib.OnGrid 1 x.remaining) {r : ℚ}
    (hr : Lib.OnGrid 1 r) : (∀ f ∈ hits os r, Lib.OnGrid 1 f.2) ∧ Lib.OnGrid 1 (leftover os r) ∧
      ∀ x ∈ afterFills os r, Lib.OnGrid 1 x.remaining := by
  induction os generalizing r with
  | nil =>
    exact ⟨fun _ hf => absurd hf List.not_mem_nil, hr, fun _ hx => absurd hx List.not_mem_nil⟩
  | cons x xs ih =>
    have hx := hos x List.mem_cons_self
    have hxs : ∀ y ∈ xs, Lib.OnGrid 1 y.remaining := fun y hy => hos y (List.mem_cons_of_mem _ hy)
    rw [hits, leftover, afterFills]
    split_ifs with h
    · have hfill := hr.min hx
      obtain ⟨hhits, hleft, hafter⟩ := ih hxs (r := q (r - min r x.remaining))
        (by rw [q_of_whole (hr.sub hfill)]; exact hr.sub hfill)
      refine ⟨fun f hf => ?_, hleft, fun y hy => ?_⟩
      · rcases List.mem_cons.mp hf with rfl | hf
        · exact hfill
        · exact hhits f hf
      · unfold shiftFilled at hy
        split_ifs at hy
        · exact hafter y hy
        · rcases List.mem_cons.mp hy with rfl | hy
          · show Lib.OnGrid 1 (q (x.remaining - min r x.remaining))
            rw [q_of_whole (hx.sub hfill)]
            exact hx.sub hfill
          · exact hafter y hy
    · exact ⟨fun _ hf => absurd hf List.not_mem_nil, hr, hos⟩

/-- No fill takes more than the order asks for. -/
theorem hits_le {os : List RestingOrder} (hos : ∀ x ∈ os, 0 ≤ x.remaining) {r : ℚ} (hr : Grid r)
    {f : RestingOrder × ℚ} (hf : f ∈ hits os r) : f.2 ≤ r := by
  induction os generalizing r with
  | nil => cases hf
  | cons x xs ih =>
    rw [hits] at hf
    split_ifs at hf with h
    · rcases List.mem_cons.mp hf with rfl | hf
      · exact min_le_left _ _
      · have hfill : 0 ≤ min r x.remaining :=
          le_min (le_trans (by norm_num) h.le) (hos x List.mem_cons_self)
        have hrest := ih (fun y hy => hos y (List.mem_cons_of_mem _ hy)) (grid_q _) hf
        exact hrest.trans (q_le (by linarith) hr)
    · cases hf

/-- What is left of an order is no more than it was. -/
theorem leftover_le {os : List RestingOrder} (hos : ∀ x ∈ os, 0 ≤ x.remaining) {r : ℚ}
    (hr : Grid r) : leftover os r ≤ r := by
  induction os generalizing r with
  | nil => exact le_rfl
  | cons x xs ih =>
    rw [leftover]
    split_ifs with h
    · have hfill : 0 ≤ min r x.remaining :=
        le_min (le_trans (by norm_num) h.le) (hos x List.mem_cons_self)
      have hrest := ih (fun y hy => hos y (List.mem_cons_of_mem _ hy))
        (grid_q (r - min r x.remaining))
      exact hrest.trans (q_le (by linarith) hr)
    · exact le_rfl

/-- Whoever is named by the makers is named by what the loops note of them. -/
theorem settleAll_owners {P : String → String → Prop} (e : EnvelopeMeta) (o : PlaceOrder)
    {m : Matching} (hm : ∀ id t, m.makerTouched.get? id = some t → P id t.userId)
    {os : List RestingOrder} (hos : ∀ x ∈ os, P x.orderId x.userId) :
    ∀ id t, (settleAll e o m os).makerTouched.get? id = some t → P id t.userId := by
  induction os generalizing m with
  | nil => exact hm
  | cons x xs ih =>
    have hxs : ∀ y ∈ xs, P y.orderId y.userId := fun y hy => hos y (List.mem_cons_of_mem _ hy)
    refine ih (m := settleFill e o m x) (fun id t ht => ?_) hxs
    rw [settleFill_touched, OrdMap.get?_set] at ht
    split_ifs at ht with hid
    · obtain rfl := Option.some.inj ht
      subst hid
      cases hold : m.makerTouched.get? x.orderId with
      | none => exact hos x List.mem_cons_self
      | some t => exact hm _ t hold
    · exact hm id t ht

end Engine

namespace Registry

variable {g : Registry} {s : EngineState} {o : PlaceOrder}

section Placed

variable (h : g.Holds s) (ho : g.placed o)

include h

theorem Holds.crossing_backed {x : RestingOrder}
    (hx : x ∈ crossing o (levelsFor s (maker_side o.side))) :
    (∃ maker, g.Backs x maker) ∧ x.side = maker_side o.side ∧ Engine.crosses o x.price = true ∧
      1e-9 < x.remaining := by
  have hside := h.book.side (maker_side o.side)
  have hmem := crossing_subset hx
  rw [crossing_eq_filter hside] at hx
  refine ⟨h.resting x (BookOK.resting_of_side s hmem), ?_, (List.mem_filter.mp hx).2, ?_⟩
  · exact (hside.order hmem).side_eq
  · exact (hside.order hmem).live

theorem Holds.crossing_whole :
    ∀ x ∈ crossing o (levelsFor s (maker_side o.side)), Lib.OnGrid 1 x.remaining :=
  fun _ hx => ((h.crossing_backed hx).1.choose_spec).whole

theorem Holds.crossing_live : ∀ x ∈ crossing o (levelsFor s (maker_side o.side)), 0 ≤ x.remaining :=
  fun _ hx => le_trans (by norm_num) (h.crossing_backed hx).2.2.2.le

theorem Holds.reached_owned {x : RestingOrder} (hx : x ∈ reached s o) :
    g.owns x.orderId x.userId := by
  obtain ⟨maker, hmaker⟩ := (h.crossing_backed (hits_mem hx)).1
  rw [hmaker.orderId, hmaker.userId]
  exact g.owns_placed hmaker.placed

include ho

/-- A fill is a trade that both orders allow. -/
theorem Holds.allows (e : EnvelopeMeta) (i : ℕ) {f : RestingOrder × ℚ} (hf : f ∈ fillsOf s o) :
    ∃ maker, g.Allows (tradeOf s e o i f) maker o := by
  have hwhole := g.whole ho
  have hmem := hits_mem (List.mem_map_of_mem hf)
  obtain ⟨⟨maker, hmaker⟩, hside, hcross, -⟩ := h.crossing_backed hmem
  obtain ⟨hpos, hle⟩ := fillsOf_bounds h.book hf
  exact ⟨maker,
    { maker_placed := hmaker.placed
      taker_placed := ho
      makerOrderId := hmaker.orderId
      makerUserId := hmaker.userId
      takerOrderId := rfl
      takerUserId := rfl
      maker_limit := hmaker.orderType
      opposite := hmaker.side.symm.trans hside
      price := hmaker.price
      crosses := hmaker.price ▸ hcross
      positive := hpos
      maker_quantity := hle.trans hmaker.remaining
      taker_quantity := hits_le h.crossing_live (grid_of_whole hwhole) hf
      whole := (hits_whole h.crossing_whole hwhole).1 f hf }⟩

/-- The drafts of an accepted order. -/
theorem Holds.vouches_placed (e : EnvelopeMeta) :
    ∀ d ∈ (placeAccepted e o (lock s o.userId o.margin).1).2, g.Vouches d := by
  intro d hd
  have htrades := placeAccepted_trades s e o
  rw [matched_trades] at htrades
  have hreports := placeAccepted_reports s e o
  rw [placeAccepted_eq] at hd htrades hreports
  have hd' := hd
  simp only [List.mem_append, List.mem_singleton, or_assoc] at hd
  rcases hd with hd | hd | hd | rfl
  · rcases settleRemainder_isMatch s e o d hd with ⟨t, rfl⟩ | ⟨x, rfl⟩
    · have ht : t ∈ (fillsOf s o).mapIdx (tradeOf s e o) := by
        rw [← htrades]
        exact List.mem_filterMap.mpr ⟨_, hd', rfl⟩
      obtain ⟨i, hi, rfl⟩ := List.mem_mapIdx.mp ht
      obtain ⟨maker, hmaker⟩ := h.allows ho e i (List.getElem_mem hi)
      exact ⟨maker, o, hmaker⟩
    · trivial
  · obtain ⟨⟨id, t⟩, ht, rfl⟩ := List.mem_map.mp hd
    rw [(matched_spec s e o).makerTouched, OrdMap.mem_entries_iff] at ht
    have hnone (id : String) :
        (matchStart (lock s o.userId o.margin).1 o).makerTouched.get? id = none := rfl
    refine settleAll_owners e o (P := g.owns) (fun id t ht => ?_)
      (fun x hx => h.reached_owned hx) id t ht
    rw [hnone] at ht
    cases ht
  · obtain ⟨u, hu, hd⟩ := List.mem_flatMap.mp hd
    have hknown : g.knows u := by
      rcases (matched_affected e o u).mp hu with rfl | hu
      · exact g.knows_owner (g.owns_placed ho)
      · obtain ⟨x, hx, rfl⟩ := List.mem_map.mp hu
        exact g.knows_owner (h.reached_owned hx)
    rcases List.mem_pair.mp hd with rfl | rfl <;> exact hknown
  · exact g.owns_placed ho

/-- What rests of an order is part of what was placed. -/
theorem Holds.rest_backed (e : EnvelopeMeta) {x : RestingOrder}
    (hx : x ∈ ownRest e o (matched s e o)) : g.Backs x o := by
  have hwhole := g.whole ho
  unfold ownRest at hx
  split_ifs at hx with hrest
  · obtain rfl := List.mem_singleton.mp hx
    refine ⟨ho, hrest.1, rfl, rfl, rfl, rfl, ?_, ?_⟩
    · show (matched s e o).remaining ≤ o.quantity
      rw [matched_remaining]
      exact leftover_le h.crossing_live (grid_of_whole hwhole)
    · show Lib.OnGrid 1 (matched s e o).remaining
      rw [matched_remaining]
      exact (hits_whole h.crossing_whole hwhole).2.1
  · cases hx

/-- What the fills leave is in whole units. -/
theorem Holds.matched_whole (e : EnvelopeMeta) :
    ∀ x ∈ (matched s e o).state.resting, Lib.OnGrid 1 x.remaining := by
  intro x hx
  have hold (side : Side) : ∀ y ∈ ordersOf (levelsFor s side), Lib.OnGrid 1 y.remaining :=
    fun y hy => ((h.resting y (BookOK.resting_of_side s hy)).choose_spec).whole
  rw [(matched_resting_perm s e o).mem_iff, List.mem_append, ordersOf_sweepLevels,
    List.mem_append] at hx
  rcases hx with hx | hx | hx
  · exact hold _ x hx
  · exact (hits_whole (fun y hy => hold _ y (crossing_subset hy)) (g.whole ho)).2.2 x hx
  · refine hold (maker_side o.side) x ?_
    rw [ordersOf_eq o]
    exact List.mem_append_right _ hx

end Placed

/-- What a fill leaves is backed by the same order. -/
theorem Backs.reduced {x y : RestingOrder} (h : g.Backs y o) (hxy : Reduced x y)
    (hx : Lib.OnGrid 1 x.remaining) : g.Backs x o := by
  cases hxy with
  | same => exact h
  | @filled _ f h0 hf hlive =>
    refine { h with remaining := le_trans ?_ h.remaining, whole := hx }
    exact q_le (by linarith) (grid_of_whole h.whole)

section Step

variable {e : EngineInputEvent} (h : g.Holds s) (hadm : g.Admits e.payload)

include h hadm

/-- The book stays backed. -/
theorem Holds.resting_process (he : engineInputEventSchema e) (id : StreamId) :
    ∀ x ∈ (process s e id).1.resting, ∃ o, g.Backs x o := by
  intro x hx
  by_cases hacc : ∃ o, Accepted s e o
  · obtain ⟨o, hacc⟩ := hacc
    rw [hacc.payload] at hadm
    rw [hacc.resting, (placed_resting h.book _ o).mem_iff, List.mem_append] at hx
    rcases hx with hx | hx
    · exact ⟨o, h.rest_backed hadm _ hx⟩
    · obtain ⟨y, hy, hxy⟩ := matched_reduced h.book _ o hx
      obtain ⟨p, hp⟩ := h.resting y hy
      exact ⟨p, hp.reduced hxy (h.matched_whole hadm _ x hx)⟩
  · obtain ⟨gone, hgone⟩ := process_resting he (not_exists.mp hacc) id
    exact h.resting x (hgone.mem_iff.mpr (List.mem_append_right _ hx))

/-- Whatever an event drafts is vouched for. -/
theorem Holds.vouches_dispatch : ∀ d ∈ (dispatch s e).2, g.Vouches d := by
  have hout := dispatch_outcome s e
  generalize dispatch s e = r at hout
  intro d hd
  cases hout with
  | opened p hp | deposited p hp =>
    rw [hp] at hadm
    obtain rfl := List.mem_singleton.mp hd
    exact hadm
  | rejected o hp reason =>
    rw [hp] at hadm
    rcases List.mem_pair.mp hd with rfl | rfl
    · exact g.owns_placed hadm
    · trivial
  | placed o hp hr hl =>
    rw [hp] at hadm
    exact h.vouches_placed hadm _ d hd
  | missed c hp ht =>
    rw [hp] at hadm
    rcases List.mem_pair.mp hd with rfl | rfl
    · exact hadm
    · trivial
  | cancelled c hp level removed ht hlevel hremoved =>
    rw [hp] at hadm
    simp only [List.mem_cons, List.not_mem_nil, or_false] at hd
    rcases hd with rfl | rfl | rfl
    · trivial
    · exact g.knows_owner hadm
    · exact hadm
  | stale => cases hd
  | swept p hp hseq =>
    obtain ⟨l, hl, hd⟩ := List.mem_flatMap.mp hd
    obtain ⟨old, hold, -⟩ := (mem_liquidationsOf h.keys p).mp hl
    have hknown : g.knows l.userId := h.positions _ (by rw [hold]; rfl)
    rcases List.mem_cons.mp hd with rfl | hd
    · exact hknown
    · rcases List.mem_pair.mp hd with rfl | rfl <;> exact hknown

theorem Holds.vouches_process (id : StreamId) :
    ∀ d ∈ (process s e id).2.map EngineOutputEvent.payload, g.Vouches d := by
  by_cases ha : alreadyApplied s e = true
  · rw [process_applied ha]
    exact fun _ hd => (nomatch hd)
  · rw [process_payloads, reduce_of_new ha]
    exact h.vouches_dispatch hadm

/-- An event that is admitted keeps the engine to what is registered. -/
theorem Holds.process (he : engineInputEventSchema e) (id : StreamId) :
    g.Holds (Engine.process s e id).1 := by
  have hannounced := process_announced h.keys e id
  have hvouches := h.vouches_process hadm id
  -- who has a new record is named by an account event
  refine ⟨bookOK_process h.book he id, keysOK_step h.keys e id, h.resting_process hadm he id,
    fun u hu => ?_, fun u hu => ?_⟩
  · by_cases hsame : (Engine.process s e id).1.balances.get? u = s.balances.get? u
    · exact h.balances u (hsame ▸ hu)
    · obtain ⟨x, hx, rfl⟩ := List.mem_map.mp (hannounced.changedBalances u hsame)
      obtain ⟨d, hd, hentry⟩ := List.mem_filterMap.mp hx
      have hv := hvouches d hd
      cases d <;> simp only [balanceEntry, Option.some.injEq, reduceCtorEq] at hentry
      subst hentry
      exact hv
  · by_cases hsame : ((Engine.process s e id).1.positions.get? u).map Position.settledPart =
        (s.positions.get? u).map Position.settledPart
    · have hsome := congrArg Option.isSome hsame
      rw [Option.isSome_map, Option.isSome_map] at hsome
      exact h.positions u (hsome ▸ hu)
    · obtain ⟨x, hx, rfl⟩ := List.mem_map.mp (hannounced.changedPositions u hsame)
      obtain ⟨d, hd, hentry⟩ := List.mem_filterMap.mp hx
      have hv := hvouches d hd
      cases d <;> simp only [positionEntry, Option.some.injEq, reduceCtorEq] at hentry
      subst hentry
      exact hv

end Step

theorem holds_createState (g : Registry) (market : MarketConfig) : g.Holds (createState market) :=
  ⟨bookOK_createState market, keysOK_createState market, fun _ hx => (nomatch hx),
    fun _ hu => (nomatch hu), fun _ hu => (nomatch hu)⟩

/-- What is looked up is all that counts. -/
theorem Holds.congr {t : EngineState} (h : g.Holds s) (hbook : BookOK t) (hkeys : KeysOK t)
    (hbids : t.bids = s.bids) (hasks : t.asks = s.asks)
    (hbal : ∀ u, t.balances.get? u = s.balances.get? u)
    (hpos : ∀ u, t.positions.get? u = s.positions.get? u) : g.Holds t := by
  have hresting : t.resting = s.resting := by
    unfold EngineState.resting
    rw [hbids, hasks]
  exact ⟨hbook, hkeys, hresting ▸ h.resting, fun u hu => h.balances u (hbal u ▸ hu),
    fun u hu => h.positions u (hpos u ▸ hu)⟩

end Registry

end Perps
