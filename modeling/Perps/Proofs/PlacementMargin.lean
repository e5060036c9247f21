import Perps.Domain.Fills
import Perps.Proofs.BookInvariant

/-! The margin check of a new order against the fills the order goes on to make.
The check uses one reference price: the limit, or the best opposite price. The
fills use the makers' prices. An order is margined at its leverage in every fill
when the check also passes at the price of every maker it reaches; that is so
for the bids with a limit and the asks at market, and not for the others. -/

namespace Perps

open Lib

namespace Engine

/-- The share of the fill in the slack of the check, and the roundings. -/
def fillSlack (o : PlaceOrder) (f : ℚ) : ℚ :=
  f / o.quantity * ((1e-6 + 0.5e-8) * o.leverage + 0.5e-8) + 0.5e-8 * o.leverage

/-- Every trade of the order is covered at the order's leverage by the margin
that goes with it. -/
def TakerFillsMargined (s : EngineState) (e : EngineInputEvent) (o : PlaceOrder) (id : StreamId) :
    Prop :=
  ∀ t ∈ trades ((process s e id).2.map EngineOutputEvent.payload),
    t.price * t.quantity ≤ takerFillMargin o t.quantity * o.leverage + fillSlack o t.quantity

/-- The check passes at the price of every maker that the order reaches. -/
def MarginedAtMakers (s : EngineState) (o : PlaceOrder) : Prop :=
  ∀ x ∈ reached s o, marginShort x.price o.quantity o.leverage o.margin = false

instance (s : EngineState) (o : PlaceOrder) : Decidable (MarginedAtMakers s o) :=
  inferInstanceAs (Decidable (∀ x ∈ reached s o, _))

instance (s : EngineState) (e : EngineInputEvent) (o : PlaceOrder) (id : StreamId) :
    Decidable (TakerFillsMargined s e o id) :=
  inferInstanceAs (Decidable (∀ t ∈ trades ((process s e id).2.map EngineOutputEvent.payload), _))

theorem marginShort_eq {o : PlaceOrder} (ho : o.Valid) (price : ℚ) :
    marginShort price o.quantity o.leverage o.margin =
      decide (o.margin + 1e-6 < q (q (price * o.quantity) / o.leverage)) := by
  unfold marginShort requiredMargin
  rw [if_neg (not_le.mpr ho.2.2.2.2.1)]
  rfl

/-- The requirement grows with the price. -/
theorem marginShort_mono {o : PlaceOrder} (ho : o.Valid) {a b : ℚ} (hab : a ≤ b)
    (h : marginShort b o.quantity o.leverage o.margin = false) :
    marginShort a o.quantity o.leverage o.margin = false := by
  rw [marginShort_eq ho, decide_eq_false_iff_not, not_lt] at h ⊢
  have hn : q (a * o.quantity) ≤ q (b * o.quantity) :=
    q_mono (mul_le_mul_of_nonneg_right hab ho.2.2.1.le)
  exact (q_mono (div_le_div_of_nonneg_right hn ho.2.2.2.2.1.le)).trans h

theorem marginShort_zero {o : PlaceOrder} (ho : o.Valid) :
    marginShort 0 o.quantity o.leverage o.margin = false := by
  rw [marginShort_eq ho, zero_mul, q_zero, zero_div, q_zero, decide_eq_false_iff_not, not_lt]
  have := ho.2.2.2.2.2
  linarith

/-- Where the check passes, a fill of `f` at that price is covered. -/
theorem fill_margined {o : PlaceOrder} (ho : o.Valid) {price f : ℚ} (hf : 0 ≤ f)
    (h : marginShort price o.quantity o.leverage o.margin = false) :
    price * f ≤ takerFillMargin o f * o.leverage + fillSlack o f := by
  rw [marginShort_eq ho, decide_eq_false_iff_not, not_lt] at h
  obtain ⟨-, -, hQ, -, hlev, -⟩ := ho
  have hstep : halfStep = 0.5e-8 := by norm_num [halfStep, SCALE]
  have hnotional := sub_le_q (price * o.quantity)
  have hreq := sub_le_q (q (price * o.quantity) / o.leverage)
  have htaker := sub_le_q (f * marginPerUnit o)
  rw [hstep] at hnotional hreq htaker
  -- the check, as a bound on the whole notional
  have hwhole : price * o.quantity ≤
      o.margin * o.leverage + ((1e-6 + 0.5e-8) * o.leverage + 0.5e-8) := by
    have h1 : q (price * o.quantity) / o.leverage ≤ o.margin + 1e-6 + 0.5e-8 := by linarith
    rw [div_le_iff₀ hlev] at h1
    linarith
  -- the share of the fill in it
  have hshare : price * f ≤ f * marginPerUnit o * o.leverage +
      f / o.quantity * ((1e-6 + 0.5e-8) * o.leverage + 0.5e-8) := by
    have h1 := mul_le_mul_of_nonneg_left hwhole (div_nonneg hf hQ.le)
    have h2 : f / o.quantity * (price * o.quantity) = price * f := by
      field_simp
    have h3 : f / o.quantity * (o.margin * o.leverage) = f * marginPerUnit o * o.leverage := by
      unfold marginPerUnit
      field_simp
    rw [h2, mul_add, h3] at h1
    exact h1
  have hround := mul_le_mul_of_nonneg_right htaker hlev.le
  unfold takerFillMargin fillSlack
  linarith

/-- The best price of a side is at least as good as any. -/
theorem best_first {side : Side} {levels : List PriceLevel} (h : SideOK side levels)
    {x : RestingOrder} (hx : x ∈ ordersOf levels) {l : PriceLevel} (hl : levels.head? = some l) :
    x.price = l.price ∨ betterFirst side l.price x.price := by
  cases levels with
  | nil => cases hl
  | cons m ms =>
    obtain rfl := Option.some.inj hl
    rcases List.mem_append.mp hx with hx | hx
    · exact Or.inl ((h.levels m List.mem_cons_self).orders x hx).price_eq
    · obtain ⟨l, hl, hx⟩ := mem_ordersOf.mp hx
      rw [((h.levels l (List.mem_cons_of_mem _ hl)).orders x hx).price_eq]
      exact Or.inr ((List.pairwise_cons.mp h.sorted).1 l hl)

/-- For these orders no maker's price is above the reference price. -/
theorem price_le_refPrice {s : EngineState} (h : BookOK s) {o : PlaceOrder}
    (hkind : o.orderType = .LIMIT ∧ o.side = .Bid ∨ o.orderType = .MARKET ∧ o.side = .Ask)
    {x : RestingOrder} (hx : x ∈ reached s o) : x.price ≤ refPrice s o := by
  have hcross := hits_mem hx
  rcases hkind with ⟨ht, hs⟩ | ⟨ht, hs⟩
  · rw [crossing_eq_filter (h.side _)] at hcross
    have := (List.mem_filter.mp hcross).2
    simp only [crosses, ht, hs, decide_eq_true_eq] at this
    simpa [refPrice, ht] using this
  · have hx := crossing_subset hcross
    simp only [refPrice, ht]
    rw [hs] at hx ⊢
    unfold bestPrice
    cases hl : (levelsFor s (maker_side .Ask)).head? with
    | none =>
      rw [List.head?_eq_none_iff] at hl
      rw [hl] at hx
      cases hx
    | some l =>
      have hbest := best_first (h.side (maker_side .Ask)) hx hl
      simp only [maker_side, betterFirst, decide_eq_true_eq] at hbest
      rcases hbest with heq | hlt
      · exact heq.le
      · exact hlt.le

theorem not_short_at_refPrice {s : EngineState} {o : PlaceOrder} (h : placeRejection s o = none)
    (hpos : refPrice s o > 0) :
    marginShort (refPrice s o) o.quantity o.leverage o.margin = false := by
  rw [← Bool.not_eq_true]
  intro hshort
  have hlast : refPrice s o > 0 ∧
      marginShort (refPrice s o) o.quantity o.leverage o.margin = true := ⟨hpos, hshort⟩
  simp only [placeRejection, if_pos hlast] at h
  split_ifs at h

/-- The reference price covers the bids with a limit and the asks at market. -/
theorem marginedAtMakers_of_kind {s : EngineState} (h : BookOK s) {o : PlaceOrder} (ho : o.Valid)
    (hchecks : placeRejection s o = none)
    (hkind : o.orderType = .LIMIT ∧ o.side = .Bid ∨ o.orderType = .MARKET ∧ o.side = .Ask) :
    MarginedAtMakers s o := by
  intro x hx
  have hle := price_le_refPrice h hkind hx
  by_cases hpos : refPrice s o > 0
  · exact marginShort_mono ho hle (not_short_at_refPrice hchecks hpos)
  · exact marginShort_mono ho (hle.trans (not_lt.mp hpos)) (marginShort_zero ho)

/-- In every reachable state, an accepted order is margined in every fill if
the check passes at the makers it reaches, as it does for the bids with a limit
and the asks at market. -/
theorem taker_fills_margined {market : MarketConfig} {s : EngineState}
    (h : Reachable engineInputEventSchema market s) {e : EngineInputEvent}
    (he : engineInputEventSchema e) {o : PlaceOrder} (hacc : Accepted s e o) (id : StreamId) :
    (MarginedAtMakers s o → TakerFillsMargined s e o id) ∧
      (o.orderType = .LIMIT ∧ o.side = .Bid ∨ o.orderType = .MARKET ∧ o.side = .Ask →
        MarginedAtMakers s o) := by
  have hbook := reachable_bookOK h
  have ho := hacc.valid he
  refine ⟨fun hmakers t ht => ?_, marginedAtMakers_of_kind hbook ho hacc.checks⟩
  rw [hacc.payloads, placeAccepted_trades, matched_trades] at ht
  obtain ⟨i, hi, rfl⟩ := List.mem_mapIdx.mp ht
  have hmem := List.getElem_mem hi
  exact fill_margined ho (fillsOf_bounds hbook hmem).1.le
    (hmakers _ (List.mem_map.mpr ⟨_, hmem, rfl⟩))

open Fixture in
/-- A bid with a limit, through two levels. -/
theorem taker_fills_margined_bid :
    let s := (run (createState MARKET) (numbered
      [user "m" 1000000, user "t" 1000000, place "m" "a1" .Ask .LIMIT 100 2 1 200,
        place "m" "a2" .Ask .LIMIT 102 2 1 204])).1
    let e := place "t" "b1" .Bid .LIMIT 103 3 20 100
    let o : PlaceOrder := ⟨"t", "b1", .Bid, .LIMIT, 3, 103, 20, 100⟩
    (MarginedAtMakers s o → TakerFillsMargined s e o ⟨5, 0⟩) ∧
      (o.orderType = .LIMIT ∧ o.side = .Bid ∨ o.orderType = .MARKET ∧ o.side = .Ask →
        MarginedAtMakers s o) :=
  taker_fills_margined (reachable_run .init (by decide +kernel)) (by decide +kernel)
    ⟨rfl, by decide +kernel, by decide +kernel, by decide +kernel⟩ ⟨5, 0⟩

open Fixture in
/-- An ask with a limit of 100 is checked against 100 and sold at 1000: a margin
of 100 at leverage 20 for a notional of 10000. -/
theorem taker_fills_not_margined :
    let s := (run (createState MARKET) (numbered
      [user "m" 1000000, user "t" 1000000, place "m" "b1" .Bid .LIMIT 1000 10 20 500])).1
    let e := place "t" "a1" .Ask .LIMIT 100 10 20 100
    let o : PlaceOrder := ⟨"t", "a1", .Ask, .LIMIT, 10, 100, 20, 100⟩
    Reachable engineInputEventSchema MARKET s ∧ engineInputEventSchema e ∧ Accepted s e o ∧
      ¬ TakerFillsMargined s e o ⟨4, 0⟩ :=
  ⟨reachable_run .init (by decide +kernel), by decide +kernel,
    ⟨rfl, by decide +kernel, by decide +kernel, by decide +kernel⟩, by decide +kernel⟩

end Engine

end Perps
