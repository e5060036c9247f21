import Perps.Domain.Fills
import Perps.Lib.Greedy
import Perps.Proofs.BookInvariant

/-! Matching refines price-time priority: on quantities that are multiples of
`10 ^ (-8)` the loops carry out the greedy allocation of the taker's quantity to
the resting orders it accepts, best price first and oldest first. -/

namespace Perps

open Lib

namespace Engine

/-- The opposite side in priority order, restricted to the prices the taker
accepts. -/
def candidates (s : EngineState) (o : PlaceOrder) : List RestingOrder :=
  (ordersOf (levelsFor s (maker_side o.side))).filter fun x => crosses o x.price

/-- The greedy allocation of the taker's quantity. -/
def priceTimeFills (s : EngineState) (o : PlaceOrder) : List (RestingOrder × ℚ) :=
  greedy RestingOrder.remaining (candidates s o) o.quantity

/-- What an allocation leaves of a resting order: nothing of one it exhausts,
and an order it does not reach as it is. -/
def leftOf (fills : List (RestingOrder × ℚ)) (x : RestingOrder) : Option RestingOrder :=
  match fills.find? fun f => f.1 = x with
  | none => some x
  | some (_, f) =>
    if f = x.remaining then none
    else some { x with
      remaining := x.remaining - f
      margin := q (x.margin - makerFillMargin x f) }

/-- What an allocation leaves of a side: emptied levels are gone. -/
def levelsLeft (fills : List (RestingOrder × ℚ)) (levels : List PriceLevel) : List PriceLevel :=
  (levels.map fun l => { l with orders := l.orders.filterMap (leftOf fills) }).filter
    fun l => l.orders ≠ []

/-! Exact arithmetic on the grid -/

/-- On the grid the fills are the greedy ones. -/
theorem hits_eq_greedy {os : List RestingOrder} (hos : ∀ x ∈ os, Grid x.remaining) {r : ℚ}
    (hr : Grid r) : hits os r = greedy RestingOrder.remaining os r := by
  induction os generalizing r with
  | nil => rfl
  | cons x xs ih =>
    have hrest : Grid (r - min r x.remaining) := hr.sub (hr.min (hos x List.mem_cons_self))
    rw [hits, greedy, q_of_grid hrest, ih (fun y hy => hos y (List.mem_cons_of_mem _ hy)) hrest]
    simp only [grid_gt_iff hr]

theorem leftOf_cons_ne {x y : RestingOrder} {f : ℚ} (h : x ≠ y) (fills : List (RestingOrder × ℚ)) :
    leftOf ((x, f) :: fills) y = leftOf fills y := by
  unfold leftOf
  rw [List.find?_cons_of_neg (by simpa using h)]

theorem leftOf_of_notMem {fills : List (RestingOrder × ℚ)} {x : RestingOrder}
    (h : x ∉ fills.map Prod.fst) : leftOf fills x = some x := by
  have hnone : fills.find? (fun f => f.1 = x) = none := by
    rw [List.find?_eq_none]
    intro f hf hfx
    exact h (List.mem_map.mpr ⟨f, hf, of_decide_eq_true hfx⟩)
  unfold leftOf
  rw [hnone]

theorem filterMap_leftOf_of_disjoint {fills : List (RestingOrder × ℚ)} {os : List RestingOrder}
    (h : ∀ x ∈ os, x ∉ fills.map Prod.fst) : os.filterMap (leftOf fills) = os := by
  rw [List.filterMap_congr fun x hx => leftOf_of_notMem (h x hx)]
  exact List.filterMap_some

theorem shiftFilled_eq {x : RestingOrder} {f : ℚ} (hx : Grid x.remaining) (hf : Grid f)
    (hle : f ≤ x.remaining) (rest : List RestingOrder)
    (fills : List (RestingOrder × ℚ)) :
    shiftFilled (fillMaker x f) rest = (leftOf ((x, f) :: fills) x).toList ++ rest := by
  have hexact : (fillMaker x f).remaining = x.remaining - f := q_of_grid (hx.sub hf)
  have hgt := grid_gt_iff (hx.sub hf)
  unfold shiftFilled leftOf
  rw [hexact, List.find?_cons_of_pos (by simp)]
  dsimp only
  by_cases heq : f = x.remaining
  · rw [if_pos heq, if_pos (by rw [heq]; norm_num)]
    rfl
  · have hpos : 0 < x.remaining - f := sub_pos.mpr (lt_of_le_of_ne hle heq)
    rw [if_neg heq, if_neg (not_le.mpr (hgt.mpr hpos)), fillMaker, q_of_grid (hx.sub hf)]
    rfl

/-- What the fills leave of a queue is what the allocation leaves of its orders. -/
theorem afterFills_eq {os : List RestingOrder} (hos : ∀ x ∈ os, Grid x.remaining)
    (hnodup : os.Nodup) {r : ℚ} (hr : Grid r) {more : List (RestingOrder × ℚ)}
    (hmore : ∀ x ∈ os, x ∉ more.map Prod.fst) :
    afterFills os r = os.filterMap (leftOf (hits os r ++ more)) := by
  induction os generalizing r with
  | nil => rfl
  | cons x xs ih =>
    have hx := hos x List.mem_cons_self
    have hf : Grid (min r x.remaining) := hr.min hx
    rw [List.nodup_cons] at hnodup
    have hmore' : ∀ y ∈ xs, y ∉ more.map Prod.fst := fun y hy => hmore y (List.mem_cons_of_mem _ hy)
    have ih := ih (fun y hy => hos y (List.mem_cons_of_mem _ hy)) hnodup.2 (hr.sub hf) hmore'
    rw [afterFills, hits]
    split_ifs with hpos
    · rw [q_of_grid (hr.sub hf), ih, List.cons_append,
        shiftFilled_eq hx hf (min_le_right _ _) _ (hits xs (r - min r x.remaining) ++ more)]
      have hcongr := List.filterMap_congr fun y (hy : y ∈ xs) =>
        leftOf_cons_ne (f := min r x.remaining) (fun hxy : x = y => hnodup.1 (hxy ▸ hy))
          (hits xs (r - min r x.remaining) ++ more)
      rw [List.filterMap_cons, hcongr]
      cases leftOf ((x, min r x.remaining) :: (hits xs (r - min r x.remaining) ++ more)) x <;> rfl
    · rw [List.nil_append, filterMap_leftOf_of_disjoint hmore]

/-- Levels that no fill reaches stay. -/
theorem levelsLeft_of_disjoint {fills : List (RestingOrder × ℚ)} {levels : List PriceLevel}
    (hne : ∀ l ∈ levels, l.orders ≠ []) (h : ∀ x ∈ ordersOf levels, x ∉ fills.map Prod.fst) :
    levelsLeft fills levels = levels := by
  have hmap : levels.map (fun l => { l with orders := l.orders.filterMap (leftOf fills) }) =
      levels := by
    refine (List.map_congr_left fun l hl => ?_).trans (List.map_id levels)
    rw [filterMap_leftOf_of_disjoint fun x hx => h x (mem_ordersOf.mpr ⟨l, hl, hx⟩)]
    rfl
  rw [levelsLeft, hmap, List.filter_eq_self]
  exact fun l hl => decide_eq_true (hne l hl)

theorem levelsLeft_cons (fills : List (RestingOrder × ℚ)) (l : PriceLevel) (ls : List PriceLevel) :
    levelsLeft fills (l :: ls) =
      if l.orders.filterMap (leftOf fills) = [] then levelsLeft fills ls
      else { l with orders := l.orders.filterMap (leftOf fills) } :: levelsLeft fills ls := by
  unfold levelsLeft
  rw [List.map_cons, List.filter_cons]
  by_cases h : l.orders.filterMap (leftOf fills) = [] <;> simp [h]

theorem levelsLeft_congr {fills fills' : List (RestingOrder × ℚ)} {levels : List PriceLevel}
    (h : ∀ x ∈ ordersOf levels, leftOf fills x = leftOf fills' x) :
    levelsLeft fills levels = levelsLeft fills' levels := by
  unfold levelsLeft
  refine congrArg _ (List.map_congr_left fun l hl => ?_)
  rw [List.filterMap_congr fun x hx => h x (mem_ordersOf.mpr ⟨l, hl, hx⟩)]

theorem leftOf_append_right {fills fills' : List (RestingOrder × ℚ)} {x : RestingOrder}
    (h : x ∉ fills.map Prod.fst) : leftOf (fills ++ fills') x = leftOf fills' x := by
  induction fills with
  | nil => rfl
  | cons f fs ih =>
    rw [List.map_cons, List.mem_cons, not_or] at h
    rw [List.cons_append, leftOf_cons_ne (Ne.symm h.1), ih h.2]

/-- What the loops leave of the levels is what the allocation leaves of them. -/
theorem sweepLevels_eq {o : PlaceOrder} {levels : List PriceLevel}
    (hne : ∀ l ∈ levels, l.orders ≠ []) (hnodup : (ordersOf levels).Nodup)
    (hgrid : ∀ x ∈ ordersOf levels, Grid x.remaining) {r : ℚ} (hr : Grid r) :
    sweepLevels o levels r = levelsLeft (hits (crossing o levels) r) levels := by
  induction levels generalizing r with
  | nil => rfl
  | cons l ls ih =>
    rw [ordersOf_cons, List.nodup_append'] at hnodup
    obtain ⟨hl, hls, hdisj⟩ := hnodup
    have hgl : ∀ x ∈ l.orders, Grid x.remaining := fun x hx =>
      hgrid x (by rw [ordersOf_cons]; exact List.mem_append_left _ hx)
    have hgls : ∀ x ∈ ordersOf ls, Grid x.remaining := fun x hx =>
      hgrid x (by rw [ordersOf_cons]; exact List.mem_append_right _ hx)
    have hnls : ∀ m ∈ ls, m.orders ≠ [] := fun m hm => hne m (List.mem_cons_of_mem _ hm)
    rw [sweepLevels]
    by_cases hc : r > 1e-9 ∧ crosses o l.price = true
    · rw [if_pos hc, crossing_cons, if_pos hc.2, hits_append, levelsLeft_cons,
        ← afterFills_eq hgl hl hr fun x hx hm => hdisj hx (crossing_subset (hits_mem hm))]
      -- the rest of the side only sees the fills of its own orders
      have hrest : levelsLeft (hits l.orders r ++ hits (crossing o ls) (leftover l.orders r)) ls =
          levelsLeft (hits (crossing o ls) (leftover l.orders r)) ls :=
        levelsLeft_congr fun x hx => leftOf_append_right fun hm => hdisj (hits_mem hm) hx
      rw [hrest]
      split_ifs with he
      · exact ih hnls hls hgls (leftover_grid l.orders hr)
      · rw [hits_of_le (leftover_of_afterFills_ne_nil he),
          levelsLeft_of_disjoint hnls (by simp)]
    · have hnone : hits (crossing o (l :: ls)) r = [] := by
        rw [crossing_cons]
        split_ifs with hx
        · exact hits_of_le (fun hr => hc ⟨hr, hx⟩) _
        · rfl
      rw [if_neg hc, hnone, levelsLeft_of_disjoint hne (by simp)]

/-- The fills of the loops are those of price-time priority. -/
theorem fillsOf_eq {s : EngineState} {o : PlaceOrder}
    (hside : SideOK (maker_side o.side) (levelsFor s (maker_side o.side)))
    (hgrid : ∀ x ∈ ordersOf (levelsFor s (maker_side o.side)), Grid x.remaining)
    (hQ : Grid o.quantity) : fillsOf s o = priceTimeFills s o := by
  rw [fillsOf, crossing_eq_filter hside,
    hits_eq_greedy (fun x hx => hgrid x (List.mem_of_mem_filter hx)) hQ]
  rfl

theorem remainder_maker {e : EnvelopeMeta} {o : PlaceOrder} {m : Matching}
    {r : EngineState × List DraftOutput × OrderStatus} (h : Remainder e o m r) :
    levelsFor r.1 (maker_side o.side) = levelsFor m.state (maker_side o.side) := by
  cases h with
  | rests => exact (insertResting_other _ _).trans (nextSeq_levels _ _)
  | refunded =>
    rw [release_eq]
    cases o.side <;> rfl
  | filled => rfl

/-- The rest of a limit order is the only thing that comes to the taker's side. -/
theorem remainder_own {e : EnvelopeMeta} {o : PlaceOrder} {m : Matching}
    {r : EngineState × List DraftOutput × OrderStatus} (h : Remainder e o m r) :
    levelsFor r.1 o.side =
      if o.orderType = .LIMIT ∧ m.remaining > 1e-9 then
        insertLevels (levelsFor m.state o.side) (restingOrder e o m.remaining (m.state.seq + 1))
      else levelsFor m.state o.side := by
  cases h with
  | rests ht hr =>
    refine Eq.trans ?_ (if_pos ⟨ht, hr⟩).symm
    refine (insertResting_own _ (restingOrder e o m.remaining (m.state.seq + 1))).trans ?_
    rw [nextSeq_levels]
    rfl
  | refunded ht hr =>
    refine Eq.trans ?_ (if_neg fun hc => by simp [ht] at hc).symm
    rw [release_eq]
    cases o.side <;> rfl
  | filled hr => exact (if_neg fun hc => hr hc.2).symm

/-- What the state and the outputs of an accepted order owe to price-time
priority. -/
structure PriceTimePriority (s : EngineState) (e : EngineInputEvent) (o : PlaceOrder)
    (r : EngineState × List EngineOutputEvent) : Prop where
  /-- Both loops end by their own conditions, whatever bound beyond theirs is set. -/
  outer_terminates : ∀ n, (levelsFor s (maker_side o.side)).length + 1 ≤ n →
    ∀ m, m = loop (OuterCond o) (matchLevel e.toEnvelopeMeta o) n
      (matchStart (lock s o.userId o.margin).1 o) →
    ¬ OuterCond o m ∧ m = matched s e.toEnvelopeMeta o
  inner_terminates : ∀ (m : Matching) (l : PriceLevel) (more : List PriceLevel),
    levelsFor m.state (maker_side o.side) = l :: more → ∀ n, l.orders.length < n →
    ¬ InnerCond o (loop (InnerCond o) (matchHead e.toEnvelopeMeta o) n m)
  trades_eq : trades (r.2.map EngineOutputEvent.payload) =
    (priceTimeFills s o).mapIdx (tradeOf s e.toEnvelopeMeta o)
  fills_prefix : (priceTimeFills s o).map Prod.fst <+: candidates s o
  fills_whole : ∀ f ∈ (priceTimeFills s o).dropLast, f.2 = f.1.remaining
  total : traded (priceTimeFills s o) =
    min o.quantity ((candidates s o).map RestingOrder.remaining).sum
  opposite : levelsFor r.1 (maker_side o.side) =
    levelsLeft (priceTimeFills s o) (levelsFor s (maker_side o.side))
  rests : o.orderType = .LIMIT → 0 < o.quantity - traded (priceTimeFills s o) →
    ∃ seq, Inserted (restingOrder e.toEnvelopeMeta o (o.quantity - traded (priceTimeFills s o)) seq)
      (levelsFor s o.side) (levelsFor r.1 o.side)
  own_unchanged : ¬ (o.orderType = .LIMIT ∧ 0 < o.quantity - traded (priceTimeFills s o)) →
    levelsFor r.1 o.side = levelsFor s o.side

theorem matched_remaining_eq {s : EngineState} {e : EnvelopeMeta} {o : PlaceOrder}
    (hside : SideOK (maker_side o.side) (levelsFor s (maker_side o.side)))
    (hgrid : ∀ x ∈ ordersOf (levelsFor s (maker_side o.side)), Grid x.remaining)
    (hQ : Grid o.quantity) :
    (matched s e o).remaining = o.quantity - traded (priceTimeFills s o) := by
  rw [matched_remaining, leftover_eq (fun x hx => hgrid x (crossing_subset hx)) hQ,
    ← fillsOf_eq hside hgrid hQ]
  rfl

/-- Every accepted order on the grid is matched in price-time priority. -/
theorem match_price_time {market : MarketConfig} {s : EngineState}
    (h : Reachable engineInputEventSchema market s) {e : EngineInputEvent}
    (he : engineInputEventSchema e) {o : PlaceOrder} (hacc : Accepted s e o) (hQ : Grid o.quantity)
    (hgrid : ∀ x ∈ s.resting, Grid x.remaining) (id : StreamId) :
    PriceTimePriority s e o (process s e id) := by
  have hbook := reachable_bookOK h
  have hvalid := hacc.valid he
  have hside := hbook.side (maker_side o.side)
  have hg : ∀ x ∈ ordersOf (levelsFor s (maker_side o.side)), Grid x.remaining := fun x hx =>
    hgrid x (BookOK.resting_of_side s hx)
  have hcand : ∀ x ∈ candidates s o, 0 ≤ x.remaining := fun x hx => by
    have := (hside.order (List.mem_of_mem_filter hx)).live
    linarith
  have hrem := matched_remaining_eq (e := e.toEnvelopeMeta) hside hg hQ
  have hfills := fillsOf_eq hside hg hQ
  have hown := matched_own s e.toEnvelopeMeta o
  have hmaker := matched_maker s e.toEnvelopeMeta o
  have hR := settleRemainder_cases e.toEnvelopeMeta o (matched s e.toEnvelopeMeta o)
  refine ⟨?_, ?_, ?_, greedy_initial _ _ _, greedy_dropLast _ _ _, greedy_sum _ hcand hvalid.2.2.1.le,
    ?_, ?_, ?_⟩
  · rintro n hn m rfl
    have hen := matchLoop_enough e.toEnvelopeMeta o (matchStart (lock s o.userId o.margin).1 o)
      (n := n) (by simpa [matchStart] using hn)
    rw [hen]
    exact ⟨matched_exit s e.toEnvelopeMeta o, rfl⟩
  · exact fun m l more hl n hn => inner_exit e.toEnvelopeMeta o hl hn
  · rw [hacc.payloads, placeAccepted_trades, matched_trades, hfills]
  · have hsweep := sweepLevels_eq (o := o) (fun l hl => (hside.levels l hl).nonempty)
      (hbook.nodup _) hg hQ
    rw [hacc.levels, ← hfills]
    exact ((remainder_maker hR).trans hmaker).trans hsweep
  · intro ht hpos
    rw [← hrem] at hpos ⊢
    have hm := matched_grid s e.toEnvelopeMeta o hQ
    refine ⟨(matched s e.toEnvelopeMeta o).state.seq + 1, ?_⟩
    rw [hacc.levels, ← hown]
    refine (remainder_own hR).trans (if_pos ⟨ht, (grid_gt_iff hm).mpr hpos⟩) ▸
      insertLevels_inserted ?_
    rw [hown]
    exact (hbook.side o.side).sorted
  · intro hno
    rw [← hrem, ← grid_gt_iff (matched_grid s e.toEnvelopeMeta o hQ)] at hno
    rw [hacc.levels, ← hown]
    exact (remainder_own hR).trans (if_neg hno)

open Fixture in
/-- A bid that takes a whole level and half of the next, and rests on neither. -/
theorem match_price_time_two_levels :
    let s := (run (createState MARKET) (numbered
      [user "m" 1000000, user "t" 1000000, place "m" "a1" .Ask .LIMIT 100 2 1 200,
        place "m" "a2" .Ask .LIMIT 100 4 1 400, place "m" "a3" .Ask .LIMIT 102 2 1 204])).1
    let e := place "t" "b1" .Bid .LIMIT 103 7 1 721
    let o : PlaceOrder := ⟨"t", "b1", .Bid, .LIMIT, 7, 103, 1, 721⟩
    PriceTimePriority s e o (process s e ⟨6, 0⟩) :=
  match_price_time (reachable_run .init (by decide +kernel)) (by decide +kernel)
    ⟨rfl, by decide +kernel, by decide +kernel, by decide +kernel⟩ (by decide +kernel)
    (by decide +kernel) ⟨6, 0⟩

end Engine

end Perps
