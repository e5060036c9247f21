import Perps.Domain.Agreement
import Perps.Proofs.Atomicity

/-! The unrealized profit of a position. Marking to market and liquidating compute it, a fill
leaves it as it is. So it goes with the size and the entry price of a record for as long as
its user has not traded since the last index price. -/

namespace Perps

open Lib

namespace Engine

/-- The event is an order that is accepted and trades with `u`, as its taker or as a maker. -/
def TradesWith (s : EngineState) (e : EngineInputEvent) (u : String) : Prop :=
  ∃ o ∈ acceptedOrder s e, reached s o ≠ [] ∧
    (u = o.userId ∨ u ∈ (reached s o).map RestingOrder.userId)

/-- The event is an index price that is accepted. -/
def NewPrice (s : EngineState) (e : EngineInputEvent) : Prop :=
  ¬ alreadyApplied s e = true ∧ isPrice e = true ∧ ¬ stale s e = true

instance (s : EngineState) (e : EngineInputEvent) (u : String) : Decidable (TradesWith s e u) :=
  inferInstanceAs (Decidable (∃ _ ∈ _, _ ≠ _ ∧ (_ ∨ _)))

instance (s : EngineState) (e : EngineInputEvent) : Decidable (NewPrice s e) :=
  inferInstanceAs (Decidable (_ ∧ _ ∧ _))

/-- What `marked` says after one more event. -/
def markedAfter (u : String) (marked : Bool) (s : EngineState) (e : EngineInputEvent) : Bool :=
  if TradesWith s e u then false else marked || decide (NewPrice s e)

/-- A price has been accepted since `u` has last traded. -/
def MarkedSince (u : String) :
    Bool → EngineState → List (EngineInputEvent × StreamId) → Bool
  | marked, _, [] => marked
  | marked, s, x :: xs => MarkedSince u (markedAfter u marked s x.1) (process s x.1 x.2).1 xs

/-- The record is marked at the price, and its unrealized profit goes with its other fields. -/
structure PnlOK (price : ℚ) (p : Position) : Prop where
  mark : p.markPrice = price
  pnl : p.unrealizedPnl = q ((price - p.entryPrice) * p.size)

theorem pnlOK_mark (price : ℚ) (p : Position) : PnlOK price (markPosition price p) := by
  refine ⟨rfl, ?_⟩
  by_cases h : p.size = 0
  · simp [markPosition, h]
  · exact if_neg h

theorem pnlOK_liquidated (price : ℚ) (p : Position) :
    PnlOK price (liquidatedPos price (markPosition price p)) := by
  refine ⟨rfl, ?_⟩
  simp [liquidatedPos]

/-- Every record is right once an index price has been applied. -/
theorem pnlOK_marked {s : EngineState} (hkeys : KeysOK s) (p : IndexPriceUpdated) (u : String) :
    PnlOK (markedState s p).markPrice ((markedState s p).pos u) := by
  have hmark (v : String) := pos_markToMarket { s with lastObserverSeq := p.observerSeq } p.price v
  have hmarked := keysOK_marked hkeys p
  have hprice : (markedState s p).markPrice = p.price := by
    rw [markedState, liquidationSweep_core]
    rfl
  rw [hprice]
  unfold markedState
  rcases liquidationSweep_account hmarked p.price u with ⟨-, -, hp⟩ | ⟨-, hp⟩
  · rw [hp, hmark]
    exact pnlOK_liquidated _ _
  · rw [hp, hmark]
    exact pnlOK_mark _ _

/-! Whoever does not trade keeps the record -/

section Untraded

variable {s : EngineState} {o : PlaceOrder} {u : String}

theorem pos_settleFill (e : EnvelopeMeta) {m : Matching} {x : RestingOrder} (hx : u ≠ x.userId)
    (ho : u ≠ o.userId) : (settleFill e o m x).state.pos u = m.state.pos u := by
  rw [settleFill_state]
  show (filledLegs o m x).pos u = _
  rw [filledLegs, applyFill_eq, pos_withAccount, if_neg ho, applyFill_eq, pos_withAccount, if_neg hx]

theorem pos_settleAll (e : EnvelopeMeta) {m : Matching} {os : List RestingOrder}
    (hos : u ∉ os.map RestingOrder.userId) (ho : u ≠ o.userId) :
    (settleAll e o m os).state.pos u = m.state.pos u := by
  induction os generalizing m with
  | nil => rfl
  | cons x xs ih =>
    rw [List.map_cons, List.mem_cons, not_or] at hos
    exact (ih (m := settleFill e o m x) hos.2).trans (pos_settleFill e hos.1 ho)

theorem pos_untraded {e : EngineInputEvent} (hacc : Accepted s e o) (hnot : ¬ TradesWith s e u) :
    (placedState s e.toEnvelopeMeta o).pos u = s.pos u := by
  rw [pos_placed]
  by_cases hnone : reached s o = []
  · have hfilled : (filledOrder s e.toEnvelopeMeta o).state = (lock s o.userId o.margin).1 := by
      unfold filledOrder
      rw [show (fillsOf s o).map Prod.fst = [] from hnone]
      rfl
    rw [hfilled]
    exact pos_lock _ _ _ u
  · have hapart : ¬ (u = o.userId ∨ u ∈ (reached s o).map RestingOrder.userId) := fun hmem =>
      hnot ⟨o, acceptedOrder_eq_some.mpr hacc, hnone, hmem⟩
    rw [not_or] at hapart
    exact (pos_settleAll _ hapart.2 hapart.1).trans (pos_lock _ _ _ u)

end Untraded

theorem newPrice_of_marked {s : EngineState} {e : EngineInputEvent} {p : IndexPriceUpdated}
    (hnew : ¬ alreadyApplied s e = true) (hp : e.payload = .indexPriceUpdated p)
    (hseq : s.lastObserverSeq < p.observerSeq) : NewPrice s e := by
  refine ⟨hnew, ?_, ?_⟩
  · unfold isPrice
    rw [hp]
  · unfold stale
    rw [hp]
    simpa using hseq

/-- An event that neither is a new price nor trades with `u` leaves the position of `u` and
the mark. -/
theorem effect_untraded {s t : EngineState} {e : EngineInputEvent} {u : String}
    (hnew : ¬ alreadyApplied s e = true) (htrades : ¬ TradesWith s e u) (hprice : ¬ NewPrice s e)
    (heff : Effect s e t) : t.pos u = s.pos u ∧ t.markPrice = s.markPrice := by
  cases heff with
  | unchanged => exact ⟨rfl, rfl⟩
  | opened hsame =>
    refine ⟨hsame.pos u, ?_⟩
    rw [hsame.core]
  | credited v amount _ _ hsame =>
    rw [credit_eq] at hsame
    refine ⟨hsame.pos u, ?_⟩
    rw [hsame.core]
  | placed o hp hr hl hsame =>
    have hquotes := quotes_placed s e.toEnvelopeMeta o
    simp only [quotes, Prod.mk.injEq] at hquotes
    refine ⟨(hsame.pos u).trans (pos_untraded ⟨hp, hnew, hr, hl⟩ htrades), ?_⟩
    rw [hsame.core]
    exact hquotes.1
  | cancelled c level removed _ _ _ _ hsame =>
    rw [release_eq] at hsame
    refine ⟨(hsame.pos u).trans (pos_setLevels _ _ _ u), ?_⟩
    rw [hsame.core, withoutOrder]
    cases c.side <;> rfl
  | marked p hp hseq _ => exact absurd (newPrice_of_marked hnew hp hseq) hprice

theorem process_untraded {s : EngineState} {e : EngineInputEvent} (he : engineInputEventSchema e)
    {u : String} (htrades : ¬ TradesWith s e u) (hprice : ¬ NewPrice s e) (id : StreamId) :
    (process s e id).1.pos u = s.pos u ∧ (process s e id).1.markPrice = s.markPrice := by
  by_cases ha : alreadyApplied s e = true
  · rw [process_applied ha]
    exact ⟨rfl, rfl⟩
  · have hcore := process_new ha id
    rw [hcore.pos, hcore.markPrice]
    exact effect_untraded ha htrades hprice (dispatch_effect s e he)

theorem process_newPrice {s : EngineState} (hkeys : KeysOK s) {e : EngineInputEvent}
    (hprice : NewPrice s e) (id : StreamId) (u : String) :
    PnlOK (process s e id).1.markPrice ((process s e id).1.pos u) := by
  obtain ⟨hnew, hisPrice, hfresh⟩ := hprice
  obtain ⟨p, hp⟩ := isPrice_eq hisPrice
  have hseq : ¬ (p.observerSeq : ℤ) ≤ s.lastObserverSeq := by
    unfold stale at hfresh
    rw [hp] at hfresh
    simpa using hfresh
  have hstate : SameAccounts (markedState s p) (dispatch s e).1 := by
    unfold dispatch onIndexPrice
    rw [hp]
    dsimp only
    rw [if_neg hseq]
    exact liquidationDrafts_same _ (markedState s p, [])
  have hcore := process_new hnew id
  rw [hcore.pos, hcore.markPrice, hstate.pos, hstate.core]
  exact pnlOK_marked hkeys p u

/-- One event. -/
theorem process_pnlOK {s : EngineState} (hkeys : KeysOK s) {e : EngineInputEvent}
    (he : engineInputEventSchema e) (id : StreamId) {u : String} {marked : Bool}
    (h : marked = true → PnlOK s.markPrice (s.pos u)) (hafter : markedAfter u marked s e = true) :
    PnlOK (process s e id).1.markPrice ((process s e id).1.pos u) := by
  unfold markedAfter at hafter
  split_ifs at hafter with htrades
  by_cases hprice : NewPrice s e
  · exact process_newPrice hkeys hprice id u
  · have hmarked : marked = true := by simpa [hprice] using hafter
    obtain ⟨hpos, hmark⟩ := process_untraded he htrades hprice id
    rw [hpos, hmark]
    exact h hmarked

theorem run_pnlOK {s : EngineState} (hkeys : KeysOK s) {u : String} {marked : Bool}
    (h : marked = true → PnlOK s.markPrice (s.pos u))
    {evs : List (EngineInputEvent × StreamId)} (hevs : RunOf engineInputEventSchema evs)
    (hmarked : MarkedSince u marked s evs = true) :
    PnlOK (run s evs).1.markPrice ((run s evs).1.pos u) := by
  induction evs generalizing s marked with
  | nil => exact h hmarked
  | cons x xs ih =>
    have hx := hevs x List.mem_cons_self
    exact ih (keysOK_step hkeys x.1 x.2) (process_pnlOK hkeys hx x.2 h)
      (fun y hy => hevs y (List.mem_cons_of_mem _ hy)) hmarked

/-! The outputs -/

theorem mem_accountEvents {s : EngineState} {u : String} {x : PositionUpdated}
    (h : .positionUpdated x ∈ accountEvents s u) : x = positionPayload u (s.pos u) := by
  simpa [accountEvents] using h

/-- What a user is told of the position is what the engine holds after the event. -/
theorem dispatch_positions {s : EngineState} {e : EngineInputEvent} {x : PositionUpdated}
    (h : .positionUpdated x ∈ (dispatch s e).2) :
    x = positionPayload x.userId ((dispatch s e).1.pos x.userId) := by
  have hout := dispatch_outcome s e
  generalize dispatch s e = out at hout h
  cases hout with
  | opened | deposited => cases List.mem_singleton.mp h
  | rejected => simp [rejectPlace] at h
  | missed => simp at h
  | cancelled => simp [deltaDraft] at h
  | placed o =>
    rcases mem_placeAccepted s e.toEnvelopeMeta o h with (⟨_, hd⟩ | ⟨_, hd⟩) | ⟨_, hd⟩ | ⟨u, hu⟩
    · cases hd
    · cases hd
    · cases hd
    · rw [mem_accountEvents hu, (placeAccepted_same _ o _).pos]
      rfl
  | stale => cases h
  | swept p =>
    obtain ⟨l, -, hl⟩ := List.mem_flatMap.mp h
    rcases List.mem_cons.mp hl with hl | hl
    · cases hl
    · rw [mem_accountEvents hl, (foldl_drafted_same _ _).pos]
      rfl

theorem process_positions {s : EngineState} {e : EngineInputEvent} {id : StreamId}
    {x : PositionUpdated}
    (h : .positionUpdated x ∈ (process s e id).2.map EngineOutputEvent.payload) :
    x = positionPayload x.userId ((process s e id).1.pos x.userId) := by
  obtain ⟨hnew, h⟩ := dispatched_of_output h
  rw [(process_new hnew id).pos]
  exact dispatch_positions h

/-- After every run the unrealized profit of a record is that of its size and its entry price at
the mark, if an index price has been accepted since its user has last traded. So is the one
that the last event tells the user. -/
theorem unrealizedPnl_right (market : MarketConfig) {evs : List (EngineInputEvent × StreamId)}
    {x : EngineInputEvent × StreamId} (hevs : RunOf engineInputEventSchema (evs ++ [x])) {u : String}
    (hmarked : MarkedSince u false (createState market) (evs ++ [x]) = true) :
    let s := (run (createState market) evs).1
    let t := (run (createState market) (evs ++ [x])).1
    (∀ p, t.positions.get? u = some p →
        p.unrealizedPnl = q ((t.markPrice - p.entryPrice) * p.size)) ∧
      ∀ y, .positionUpdated y ∈ (process s x.1 x.2).2.map EngineOutputEvent.payload →
        y.userId = u → y.unrealizedPnl = q ((y.markPrice - y.entryPrice) * y.size) := by
  intro s t
  have hstart : false = true → PnlOK (createState market).markPrice ((createState market).pos u) :=
    fun h => absurd h Bool.false_ne_true
  have h : PnlOK t.markPrice (t.pos u) :=
    run_pnlOK (keysOK_createState market) hstart hevs hmarked
  have hlast : t = (process s x.1 x.2).1 := by
    show (run (createState market) (evs ++ [x])).1 = _
    rw [run_snoc]
  refine ⟨fun p hp => ?_, fun y hy hyu => ?_⟩
  · have hpos : t.pos u = p := by
      unfold EngineState.pos
      rw [hp]
      rfl
    rw [hpos] at h
    exact h.pnl
  · have hpayload := process_positions hy
    rw [← hlast, hyu] at hpayload
    rw [hpayload]
    show (t.pos u).unrealizedPnl = q (((t.pos u).markPrice - (t.pos u).entryPrice) * (t.pos u).size)
    rw [h.mark]
    exact h.pnl

open Fixture in
/-- A position is opened, grows after a first price, and is liquidated by a second. -/
theorem unrealizedPnl_right_liquidated :
    let evs := numbered [user "m" 1000, user "t" 1000, place "m" "a1" .Ask .LIMIT 100 1 1 100,
      place "t" "b1" .Bid .LIMIT 100 1 10 100, evt none (.indexPriceUpdated ⟨"BTCUSDT", 110, 1, 0⟩),
      place "m" "a2" .Ask .LIMIT 110 1 1 110, place "t" "b2" .Bid .LIMIT 110 1 10 110]
    let x := (evt none (.indexPriceUpdated ⟨"BTCUSDT", 90, 2, 0⟩), (⟨8, 0⟩ : StreamId))
    let s := (run (createState MARKET) evs).1
    let t := (run (createState MARKET) (evs ++ [x])).1
    (∀ p, t.positions.get? "t" = some p →
        p.unrealizedPnl = q ((t.markPrice - p.entryPrice) * p.size)) ∧
      ∀ y, .positionUpdated y ∈ (process s x.1 x.2).2.map EngineOutputEvent.payload →
        y.userId = "t" → y.unrealizedPnl = q ((y.markPrice - y.entryPrice) * y.size) := by
  intro evs x
  have hevs : RunOf engineInputEventSchema (evs ++ [x]) := by decide +kernel
  exact unrealizedPnl_right MARKET hevs (by decide +kernel)

open Fixture in
/-- A position that is closed after a price keeps the profit it had, and its user is told so. -/
theorem unrealizedPnl_stale :
    let evs := numbered [user "m" 1000, user "t" 1000, place "m" "a1" .Ask .LIMIT 100 1 1 100,
      place "t" "b1" .Bid .LIMIT 100 1 1 100, evt none (.indexPriceUpdated ⟨"BTCUSDT", 110, 1, 0⟩),
      place "m" "a2" .Bid .LIMIT 110 1 1 110, place "t" "b2" .Ask .LIMIT 110 1 1 110]
    let s := (run (createState MARKET) evs).1
    RunOf engineInputEventSchema evs ∧ 0 ≤ s.lastObserverSeq ∧
      (∃ p ∈ s.positions.get? "t", p.size = 0 ∧ p.unrealizedPnl = 10 ∧
        p.unrealizedPnl ≠ q ((s.markPrice - p.entryPrice) * p.size)) ∧
      ∃ d ∈ (run (createState MARKET) evs).2.map EngineOutputEvent.payload,
        d = .positionUpdated ⟨"t", 0, 0, 0, 1, 0, 10, 10, 110⟩ := by
  decide +kernel

end Engine

end Perps
