import Perps.Proofs.CashLedger
import Perps.Proofs.LiquidationSweep

/-! An audit from the outputs: the trades and the liquidations alone, without margins,
leverages or balances, determine what every user holds, and with what was paid in what
every user has. -/

namespace Perps

open Lib

/-- The part of a position in which margins have no part. -/
structure Holding where
  size : ℚ
  entryPrice : ℚ
  realizedPnl : ℚ
  deriving DecidableEq, Repr

namespace Holding

def flat : Holding := ⟨0, 0, 0⟩

/-- The profit or loss of a fill that opposes the holding. -/
def pnl (h : Holding) (price f : ℚ) : ℚ :=
  q ((price - h.entryPrice) * min |h.size| f * (if h.size > 0 then 1 else -1))

/-- One side of a trade of quantity `f`. -/
def fill (h : Holding) (side : Side) (price f : ℚ) : Holding :=
  let size := q (h.size + signedQty side f)
  if h.size = 0 then ⟨signedQty side f, price, h.realizedPnl⟩
  else if sign h.size = sign (signedQty side f) then
    ⟨size, q ((|h.size| * h.entryPrice + f * price) / (|h.size| + f)), h.realizedPnl⟩
  else if |size| < 1e-9 then ⟨0, 0, q (h.realizedPnl + h.pnl price f)⟩
  else if f > |h.size| then ⟨size, price, q (h.realizedPnl + h.pnl price f)⟩
  else ⟨size, h.entryPrice, q (h.realizedPnl + h.pnl price f)⟩

/-- A liquidation that realizes `pnl`. -/
def close (h : Holding) (pnl : ℚ) : Holding := ⟨0, 0, q (h.realizedPnl + pnl)⟩

end Holding

def Position.holding (p : Position) : Holding := ⟨p.size, p.entryPrice, p.realizedPnl⟩

@[simp] theorem refreshLiq_holding (mmr : ℚ) (p : Position) :
    (refreshLiq mmr p).holding = p.holding := by
  simp [Position.holding]

/-- What a fill does to a holding does not depend on any margin or leverage. -/
theorem fillLeg_holding (mmr : ℚ) (b : Balance) (p : Position) (side : Side)
    (price f fm lev : ℚ) :
    (fillLeg mmr b p side price f fm lev).2.holding = p.holding.fill side price f := by
  have hcase := fillLeg_case mmr b p side price f fm lev
  generalize fillLeg mmr b p side price f fm lev = r at hcase
  cases hcase with
  | opened h =>
    rw [refreshLiq_holding]
    exact (if_pos h).symm
  | added h hs =>
    rw [refreshLiq_holding]
    exact ((if_neg h).trans (if_pos hs)).symm
  | closed h hs h0 => exact ((if_neg h).trans ((if_neg hs).trans (if_pos h0))).symm
  | flipped h hs h0 hgt =>
    rw [refreshLiq_holding]
    exact ((if_neg h).trans ((if_neg hs).trans ((if_neg h0).trans (if_pos hgt)))).symm
  | reduced h hs h0 hle =>
    rw [refreshLiq_holding]
    exact ((if_neg h).trans ((if_neg hs).trans ((if_neg h0).trans (if_neg hle)))).symm

namespace Engine

/-- What every user holds. -/
abbrev Books := String → Holding

def holdings (s : EngineState) : Books := fun u => (s.pos u).holding

/-- The maker's side of a trade, and then the taker's. -/
def Books.trade (b : Books) (t : TradeExecuted) : Books :=
  let b := Function.update b t.makerUserId
    ((b t.makerUserId).fill (maker_side t.takerSide) t.price t.quantity)
  Function.update b t.takerUserId ((b t.takerUserId).fill t.takerSide t.price t.quantity)

def Books.close (b : Books) (l : PositionLiquidated) : Books :=
  Function.update b l.userId ((b l.userId).close l.realizedPnl)

/-- What an output says about the holdings. -/
def Books.record (b : Books) : DraftOutput → Books
  | .tradeExecuted t => b.trade t
  | .positionLiquidated l => b.close l
  | _ => b

/-- The books of somebody who reads the outputs. -/
def audit (outs : List EngineOutputEvent) : Books :=
  (outs.map EngineOutputEvent.payload).foldl Books.record fun _ => .flat

section Drafts

variable {ds : List DraftOutput} (b : Books)

/-- Without liquidations the trades are all that counts. -/
theorem record_trades (h : liquidated ds = []) :
    ds.foldl Books.record b = (trades ds).foldl Books.trade b := by
  induction ds generalizing b with
  | nil => rfl
  | cons d ds ih =>
    cases d with
    | positionLiquidated l => cases h
    | tradeExecuted t => exact ih (b.trade t) h
    | _ => exact ih b h

theorem record_liquidations (s : EngineState) (ls : List PositionLiquidated) :
    (ls.flatMap fun l => .positionLiquidated l :: accountEvents s l.userId).foldl Books.record b =
      ls.foldl Books.close b := by
  induction ls generalizing b with
  | nil => rfl
  | cons l ls ih =>
    rw [List.flatMap_cons, List.foldl_append, ih]
    rfl

end Drafts

section Fills

theorem holdings_congr {s t : EngineState} (h : ∀ v, t.pos v = s.pos v) :
    holdings t = holdings s :=
  funext fun v => congrArg Position.holding (h v)

theorem applyFill_holdings (s : EngineState) (u : String) (side : Side) (price f fm lev : ℚ) :
    holdings (applyFill s u side price f fm lev) =
      Function.update (holdings s) u ((holdings s u).fill side price f) := by
  funext v
  unfold holdings
  rw [applyFill_eq, pos_withAccount, Function.update_apply]
  split_ifs with hv
  · exact fillLeg_holding _ _ _ _ _ _ _ _
  · rfl

/-- What the books make of one fill of an order. -/
def Books.fill (o : PlaceOrder) (b : Books) (y : RestingOrder × ℚ) : Books :=
  let b := Function.update b y.1.userId
    ((b y.1.userId).fill (maker_side o.side) y.1.price y.2)
  Function.update b o.userId ((b o.userId).fill o.side y.1.price y.2)

theorem trade_tradeOf (s : EngineState) (e : EnvelopeMeta) (o : PlaceOrder) (i : ℕ) (b : Books)
    (y : RestingOrder × ℚ) : b.trade (tradeOf s e o i y) = Books.fill o b y := rfl

theorem foldl_mapIdx {α β γ : Type} {F : List α} {g : ℕ → α → β} {k : γ → β → γ} {k' : γ → α → γ}
    (h : ∀ i c x, k c (g i x) = k' c x) (c : γ) : (F.mapIdx g).foldl k c = F.foldl k' c := by
  induction F generalizing g c with
  | nil => rfl
  | cons x xs ih =>
    rw [List.mapIdx_cons, List.foldl_cons, List.foldl_cons, h, ih fun i => h (i + 1)]

theorem settleFill_holdings (e : EnvelopeMeta) {o : PlaceOrder} {m : Matching} {x : RestingOrder}
    (hside : x.side = maker_side o.side) : holdings (settleFill e o m x).state =
      Books.fill o (holdings m.state) (x, min m.remaining x.remaining) := by
  have hstate (v : String) : (settleFill e o m x).state.pos v = (filledLegs o m x).pos v := by
    rw [settleFill_state]
    rfl
  rw [holdings_congr hstate, filledLegs, applyFill_holdings, applyFill_holdings, hside]
  rfl

theorem settleAll_holdings (e : EnvelopeMeta) {o : PlaceOrder} {os : List RestingOrder}
    {m : Matching} (hside : ∀ x ∈ os, x.side = maker_side o.side) :
    holdings (settleAll e o m ((hits os m.remaining).map Prod.fst)).state =
      (hits os m.remaining).foldl (Books.fill o) (holdings m.state) := by
  induction os generalizing m with
  | nil => rfl
  | cons x xs ih =>
    rw [hits]
    split_ifs with hr
    · have ih := ih (m := settleFill e o m x) fun y hy => hside y (List.mem_cons_of_mem _ hy)
      rw [settleFill_remaining, settleFill_holdings e (hside x List.mem_cons_self)] at ih
      exact ih
    · rfl

/-- An accepted order does to the holdings what its trades say. -/
theorem placed_holdings {s : EngineState} (hbook : BookOK s) (e : EnvelopeMeta) (o : PlaceOrder) :
    holdings (placedState s e o) =
      (placeAccepted e o (lock s o.userId o.margin).1).2.foldl Books.record (holdings s) := by
  have hliq : liquidated (placeAccepted e o (lock s o.userId o.margin).1).2 = [] := by
    refine List.filterMap_eq_nil_iff.mpr fun d hd => ?_
    rcases mem_placeAccepted s e o hd with hd | ⟨r, rfl⟩ | ⟨u, hd⟩
    · rcases hd with ⟨t, rfl⟩ | ⟨x, rfl⟩ <;> rfl
    · rfl
    · rcases List.mem_pair.mp hd with rfl | rfl <;> rfl
  rw [record_trades _ hliq, placeAccepted_trades, matched_trades,
    foldl_mapIdx fun i b y => trade_tradeOf s e o i b y]
  have hside : ∀ x ∈ crossing o (levelsFor s (maker_side o.side)), x.side = maker_side o.side :=
    fun x hx => ((hbook.side _).order (crossing_subset hx)).side_eq
  have hfills := settleAll_holdings e (m := matchStart (lock s o.userId o.margin).1 o) hside
  refine (holdings_congr (pos_placed s e o)).trans (hfills.trans ?_)
  exact congrArg (fun b => (fillsOf s o).foldl (Books.fill o) b)
    (holdings_congr fun v => pos_lock s o.userId o.margin v)

end Fills

section Liquidations

/-- Closing every liquidated entry of a map, one after the other. -/
theorem foldl_close {es : List (String × Position)} (hkeys : ∀ x ∈ es, x.2.userId = x.1)
    (hnodup : (es.map Prod.fst).Nodup) (price : ℚ) (b : Books) (v : String) :
    ((es.filter fun x => underwater price x.2).foldl
        (fun b x => b.close (liquidationOf price x.2)) b) v =
      match (OrdMap.getEntry v es).filter (underwater price) with
      | some p => (b v).close (closePnl price p)
      | none => b v := by
  induction es generalizing b with
  | nil => rfl
  | cons x xs ih =>
    rw [List.map_cons, List.nodup_cons] at hnodup
    have hx := hkeys x List.mem_cons_self
    have ih := fun b : Books => ih (fun y hy => hkeys y (List.mem_cons_of_mem _ hy)) hnodup.2 b
    have hclose (w : String) : b.close (liquidationOf price x.2) w =
        if w = x.1 then (b w).close (closePnl price x.2) else b w := by
      have hid : (liquidationOf price x.2).userId = x.1 := hx
      unfold Books.close
      rw [hid, Function.update_apply]
      split_ifs with hw
      · rw [hw]
        rfl
      · rfl
    rw [OrdMap.getEntry]
    by_cases hv : x.1 = v
    · -- the user has no other entry
      have hnone : OrdMap.getEntry v xs = none := hv ▸ OrdMap.getEntry_of_notMem hnodup.1
      rw [if_pos hv]
      cases hu : underwater price x.2 with
      | true =>
        rw [List.filter_cons, if_pos hu, List.foldl_cons, ih, hnone, Option.filter_some_pos hu]
        exact (hclose v).trans (if_pos hv.symm)
      | false =>
        rw [List.filter_cons, if_neg (by simp [hu]), ih, hnone]
        simp [Option.filter, hu]
    · rw [if_neg hv]
      cases hu : underwater price x.2 with
      | true =>
        rw [List.filter_cons, if_pos hu, List.foldl_cons, ih, hclose, if_neg (Ne.symm hv)]
      | false => rw [List.filter_cons, if_neg (by simp [hu]), ih]

/-- A price does to the holdings what its liquidations say. -/
theorem marked_holdings {s : EngineState} (hkeys : KeysOK s) (p : IndexPriceUpdated) :
    holdings (markedState s p) = (liquidationsOf s p).foldl Books.close (holdings s) := by
  funext v
  have hrec := congrArg Prod.snd (markedState_records hkeys p v)
  have hbooks := foldl_close (fun _ hx => hkeys.entry hx) s.positions.nodup p.price (holdings s) v
  rw [liquidationsOf_eq, List.foldl_map]
  refine Eq.trans ?_ hbooks.symm
  have hget : OrdMap.getEntry v s.positions.entries = s.positions.get? v := rfl
  rw [hget]
  unfold holdings EngineState.pos
  dsimp only [records] at hrec
  cases hp : s.positions.get? v with
  | none =>
    rw [hp] at hrec
    rw [hrec]
    rfl
  | some old =>
    rw [hp] at hrec
    cases hu : underwater p.price old with
    | true =>
      rw [Option.filter_some_pos hu] at hrec ⊢
      rw [hrec]
      rfl
    | false =>
      simp only [Option.filter, hu, Bool.false_eq_true, if_false] at hrec ⊢
      rw [hrec]
      rfl

end Liquidations

section Runs

variable {s : EngineState} {e : EngineInputEvent}

theorem dispatch_holdings (hbook : BookOK s) (hkeys : KeysOK s)
    (he : engineInputEventSchema e) : holdings (dispatch s e).1 =
      (dispatch s e).2.foldl Books.record (holdings s) := by
  have hout := dispatch_outcome s e
  have heff := dispatch_effect s e he
  generalize dispatch s e = r at hout heff
  cases hout with
  | opened p hp | deposited p hp | missed c hp | cancelled c hp =>
    refine holdings_congr (effect_pos heff ?_ ?_) <;> intro x hx <;> rw [hp] at hx <;> cases hx
  | rejected o hp reason => rfl
  | placed o hp hr hl =>
    rw [← placed_holdings hbook]
    exact holdings_congr (placeAccepted_same _ _ _).pos
  | stale p hp hseq => rfl
  | swept p hp hseq =>
    rw [record_liquidations, ← marked_holdings hkeys]
    exact holdings_congr (foldl_drafted_same _ _).pos

theorem process_holdings (hbook : BookOK s) (hkeys : KeysOK s) (he : engineInputEventSchema e)
    (id : StreamId) : holdings (process s e id).1 =
      ((process s e id).2.map EngineOutputEvent.payload).foldl Books.record (holdings s) := by
  by_cases ha : alreadyApplied s e = true
  · rw [process_applied ha]
    exact holdings_congr (sameCore_lastInputId s id).pos
  · rw [process_payloads, reduce_of_new ha, holdings_congr (process_new ha id).pos]
    exact dispatch_holdings hbook hkeys he

/-- A run does to the holdings what its outputs say. -/
theorem run_holdings (hbook : BookOK s) (hkeys : KeysOK s)
    {evs : List (EngineInputEvent × StreamId)} (hevs : RunOf engineInputEventSchema evs) :
    holdings (run s evs).1 =
      ((run s evs).2.map EngineOutputEvent.payload).foldl Books.record (holdings s) := by
  induction evs generalizing s with
  | nil => rfl
  | cons x xs ih =>
    have hx := hevs x List.mem_cons_self
    have ih := ih (bookOK_process hbook hx x.2) (keysOK_step hkeys x.1 x.2)
      fun y hy => hevs y (List.mem_cons_of_mem _ hy)
    rw [run_cons, List.map_append, List.foldl_append, ← process_holdings hbook hkeys hx x.2]
    exact ih

end Runs

/-- After every run from the start, an auditor who reads no output but the trades and the
liquidations knows the size, the entry price and the realized profit of every user, and with
what was paid in the user's total. -/
theorem outputs_audit (market : MarketConfig) {evs : List (EngineInputEvent × StreamId)}
    (hevs : RunOf engineInputEventSchema evs) (u : String) :
    let r := run (createState market) evs
    (r.1.pos u).holding = audit r.2 u ∧
      (r.1.bal u).total = cashPaidIn u (createState market) evs + (audit r.2 u).realizedPnl := by
  intro r
  have haudit : (r.1.pos u).holding = audit r.2 u :=
    congrFun (run_holdings (bookOK_createState market) (keysOK_createState market) hevs) u
  have hinit : AllAccounts (LedgerOK fun _ => 0) (createState market) := fun _ =>
    ⟨grid_zero, grid_zero, (zero_add 0).symm⟩
  have htotal := (run_ledger hinit (keysOK_createState market) (bookOK_createState market) hevs
    u).total_eq
  refine ⟨haudit, ?_⟩
  rw [zero_add] at htotal
  rw [← haudit]
  exact htotal

open Fixture in
/-- Two users trade, one of them also alone, and one is liquidated. -/
theorem outputs_audit_liquidated :
    let evs := numbered [user "m" 1000000, user "t" (1000000 / 3),
      place "m" "a1" .Ask .LIMIT (100 / 3) 3 3 200, place "t" "b1" .Bid .LIMIT 100 (5 / 7) 1 100,
      place "t" "b2" .Bid .LIMIT (300 / 7) 7 3 250, place "t" "c1" .Ask .MARKET 0 2 3 200,
      evt none (.indexPriceUpdated ⟨"BTCUSDT", 5, 1, 0⟩)]
    let r := run (createState MARKET) evs
    (liquidated (r.2.map EngineOutputEvent.payload)).length = 1 ∧
      (r.1.pos "t").holding = audit r.2 "t" ∧
        (r.1.bal "t").total = cashPaidIn "t" (createState MARKET) evs + (audit r.2 "t").realizedPnl :=
  ⟨by decide +kernel, outputs_audit MARKET (by decide +kernel) "t"⟩

end Engine

end Perps
