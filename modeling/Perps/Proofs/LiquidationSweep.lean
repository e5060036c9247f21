import Perps.Domain.MapOrder
import Perps.Proofs.Amounts

/-! The liquidation sweep of a new index price: it closes the positions that the
price puts underwater, all of them and no others, whatever the order of the map. -/

namespace Perps

open Lib

namespace Engine

/-- The user has an open position that the price liquidates. -/
def Doomed (s : EngineState) (price : ℚ) (u : String) : Prop :=
  ∃ p, s.positions.get? u = some p ∧ p.size ≠ 0 ∧ isLiquidatable price p.liqPrice p.side = true

theorem underwater_iff (price : ℚ) (p : Position) :
    underwater price p = true ↔ p.size ≠ 0 ∧ isLiquidatable price p.liqPrice p.side = true := by
  simp [underwater]

/-! The reports -/

/-- The liquidations among the outputs. -/
def liquidated (outs : List DraftOutput) : List PositionLiquidated :=
  outs.filterMap fun
    | .positionLiquidated l => some l
    | _ => none

theorem liquidated_drafts (s : EngineState) (ls : List PositionLiquidated) :
    liquidated (ls.flatMap fun l => .positionLiquidated l :: accountEvents s l.userId) = ls := by
  induction ls with
  | nil => rfl
  | cons l ls ih =>
    rw [List.flatMap_cons, liquidated, List.filterMap_append]
    exact congrArg (l :: ·) ih

/-- The new mark price makes no difference to what is reported. -/
theorem liquidationsOf_eq (s : EngineState) (p : IndexPriceUpdated) :
    liquidationsOf s p = (doomed s p.price).map fun x => liquidationOf p.price x.2 := by
  unfold liquidationsOf
  rw [liquidationSweep_snd, doomed_markToMarket, List.map_map]
  rfl

section Keys

variable {s : EngineState} (hkeys : KeysOK s) (p : IndexPriceUpdated)

include hkeys

theorem mem_liquidationsOf {l : PositionLiquidated} : l ∈ liquidationsOf s p ↔
    ∃ old, s.positions.get? l.userId = some old ∧ underwater p.price old = true ∧
      l = liquidationOf p.price old := by
  rw [liquidationsOf_eq, List.mem_map]
  constructor
  · rintro ⟨⟨u, old⟩, hx, rfl⟩
    obtain ⟨hmem, hu⟩ := List.mem_filter.mp hx
    have hstored := (s.positions.mem_entries_iff u old).mp hmem
    exact ⟨old, (congrArg s.positions.get? (hkeys.entry hmem)).trans hstored, hu, rfl⟩
  · rintro ⟨old, hstored, hu, rfl⟩
    exact ⟨_, List.mem_filter.mpr ⟨(s.positions.mem_entries_iff _ old).mpr hstored, hu⟩, rfl⟩

theorem liquidated_users : (liquidationsOf s p).map PositionLiquidated.userId =
    (doomed s p.price).map Prod.fst := by
  rw [liquidationsOf_eq, List.map_map]
  refine List.map_congr_left fun x hx => ?_
  exact hkeys.entry (List.mem_filter.mp hx).1

theorem liquidated_users_nodup : ((liquidationsOf s p).map PositionLiquidated.userId).Nodup := by
  rw [liquidated_users hkeys]
  exact s.positions.nodup.sublist (List.filter_sublist.map _)

theorem mem_liquidated_users (u : String) :
    u ∈ (liquidationsOf s p).map PositionLiquidated.userId ↔ Doomed s p.price u := by
  rw [liquidated_users hkeys, List.mem_map]
  constructor
  · rintro ⟨⟨v, old⟩, hx, rfl⟩
    obtain ⟨hmem, hu⟩ := List.mem_filter.mp hx
    exact ⟨old, (s.positions.mem_entries_iff v old).mp hmem, (underwater_iff _ _).mp hu⟩
  · rintro ⟨old, hstored, hu⟩
    exact ⟨(u, old), List.mem_filter.mpr ⟨(s.positions.mem_entries_iff u old).mpr hstored,
      (underwater_iff _ _).mpr hu⟩, rfl⟩

/-- What a new index price does to the records of a user. -/
theorem markedState_records (v : String) : records (markedState s p) v =
    match (s.positions.get? v).filter (underwater p.price) with
    | some old => (some (liquidatedBal p.price (s.bal v) old),
        some (liquidatedPos p.price (markPosition p.price old)))
    | none => (s.balances.get? v, (s.positions.get? v).map (markPosition p.price)) := by
  have hmarked := keysOK_marked hkeys p
  have hstored : (markToMarket { s with lastObserverSeq := p.observerSeq } p.price).positions.get? v =
      (s.positions.get? v).map (markPosition p.price) := OrdMap.get?_mapValues _ _ _
  unfold markedState
  rw [liquidationSweep_records hmarked, records, hstored]
  cases s.positions.get? v with
  | none => rfl
  | some old =>
    have hsame : underwater p.price (markPosition p.price old) = underwater p.price old := rfl
    simp only [Option.map_some, Option.filter, hsame]
    cases underwater p.price old <;> rfl

theorem markedState_stored {u : String} (hu : Doomed s p.price u) :
    records (markedState s p) u = (some ((markedState s p).bal u), some ((markedState s p).pos u)) := by
  obtain ⟨old, hstored, hopen⟩ := hu
  have h := markedState_records hkeys p u
  rw [hstored, Option.filter_some_pos ((underwater_iff _ _).mpr hopen)] at h
  have hbal := congrArg Prod.fst h
  have hpos := congrArg Prod.snd h
  dsimp only [records] at hbal hpos
  rw [records, EngineState.bal, EngineState.pos, hbal, hpos]
  rfl

/-- The drafts of the liquidations leave the records alone. -/
theorem swept_records (v : String) :
    records (((liquidationsOf s p).map PositionLiquidated.userId).foldl drafted (markedState s p)) v =
      records (markedState s p) v := by
  rw [foldl_drafted_records]
  split_ifs with hv
  · exact (markedState_stored hkeys p ((mem_liquidated_users hkeys p v).mp hv)).symm
  · rfl

end Keys

/-- A liquidation, from the record it closes to the one it leaves. -/
structure Closed (s : EngineState) (price : ℚ) (l : PositionLiquidated) (t : EngineState)
    (old new : Position) : Prop where
  before : s.positions.get? l.userId = some old
  after : t.positions.get? l.userId = some new
  pnl : l.realizedPnl = q ((price - old.entryPrice) * old.size)
  total : (t.bal l.userId).total = (s.bal l.userId).total + l.realizedPnl
  locked : (t.bal l.userId).locked =
    (s.bal l.userId).locked - min (s.bal l.userId).locked old.margin
  size : new.size = 0
  entryPrice : new.entryPrice = 0
  margin : new.margin = 0
  liqPrice : new.liqPrice = 0
  unrealizedPnl : new.unrealizedPnl = 0

/-- What the event of a new index price does, with the liquidations it reports. -/
structure Swept (s : EngineState) (price : ℚ) (t : EngineState) (ls : List PositionLiquidated) :
    Prop where
  once : (ls.map PositionLiquidated.userId).Nodup
  exact : ∀ u, u ∈ ls.map PositionLiquidated.userId ↔ Doomed s price u
  complete : ∀ u, ¬ Doomed t price u
  closed : ∀ l ∈ ls, ∃ old new, Closed s price l t old new
  balances : ∀ u, ¬ Doomed s price u → t.balances.get? u = s.balances.get? u
  positions : ∀ u, ¬ Doomed s price u →
    t.positions.get? u = (s.positions.get? u).map (markPosition price)
  bids : t.bids = s.bids
  asks : t.asks = s.asks

theorem liquidatedBal_amounts {b : Balance} {p : Position} (h : Amounts b p) (price : ℚ) :
    (liquidatedBal price b p).total = b.total + closePnl price p ∧
      (liquidatedBal price b p).locked = b.locked - min b.locked p.margin :=
  ⟨q_of_grid (h.total_grid.add (grid_q _)), release_locked h.locked_grid h.margin_nonneg h.margin_grid⟩

theorem filter_of_not_doomed {s : EngineState} {price : ℚ} {u : String} (h : ¬ Doomed s price u) :
    (s.positions.get? u).filter (underwater price) = none := by
  refine Option.filter_eq_none_iff.mpr fun old hold hu => h ?_
  exact ⟨old, hold, (underwater_iff price old).mp hu⟩

theorem swept_of_records {s t : EngineState} (hkeys : KeysOK s)
    (hamounts : AllAccounts (fun _ => Amounts) s) (p : IndexPriceUpdated)
    (ht : ∀ v, records t v = records (markedState s p) v) (hbids : t.bids = s.bids)
    (hasks : t.asks = s.asks) : Swept s p.price t (liquidationsOf s p) := by
  have hkept {u : String} (hu : ¬ Doomed s p.price u) :
      records t u = (s.balances.get? u, (s.positions.get? u).map (markPosition p.price)) := by
    rw [ht, markedState_records hkeys, filter_of_not_doomed hu]
  have hclosed {u : String} {old : Position} (hold : s.positions.get? u = some old)
      (hu : underwater p.price old = true) : records t u =
        (some (liquidatedBal p.price (s.bal u) old),
          some (liquidatedPos p.price (markPosition p.price old))) := by
    rw [ht, markedState_records hkeys, hold, Option.filter_some_pos hu]
  refine ⟨liquidated_users_nodup hkeys p, mem_liquidated_users hkeys p, fun u => ?_, fun l hl => ?_,
    fun u hu => congrArg Prod.fst (hkept hu), fun u hu => congrArg Prod.snd (hkept hu), hbids, hasks⟩
  · rintro ⟨new, hnew, hopen, hliq⟩
    by_cases hu : Doomed s p.price u
    · -- a closed position is flat
      obtain ⟨old, hold, hdoomed⟩ := hu
      have hafter := congrArg Prod.snd (hclosed hold ((underwater_iff _ _).mpr hdoomed))
      obtain rfl := Option.some.inj (hnew.symm.trans hafter)
      exact hopen rfl
    · have hafter := hnew.symm.trans (congrArg Prod.snd (hkept hu))
      obtain ⟨old, hold, rfl⟩ := Option.map_eq_some_iff.mp hafter.symm
      exact hu ⟨old, hold, hopen, hliq⟩
  · obtain ⟨old, hold, hu, hreport⟩ := (mem_liquidationsOf hkeys p).mp hl
    have hafter := hclosed hold hu
    have hpos : s.pos l.userId = old := by
      rw [EngineState.pos, hold]
      rfl
    have hbal : t.bal l.userId = liquidatedBal p.price (s.bal l.userId) old :=
      congrArg (fun r => r.1.getD .zero) hafter
    have hamount := hamounts l.userId
    rw [hpos] at hamount
    obtain ⟨htotal, hlocked⟩ := liquidatedBal_amounts hamount p.price
    have hpnl : l.realizedPnl = closePnl p.price old := congrArg PositionLiquidated.realizedPnl hreport
    refine ⟨old, _, hold, congrArg Prod.snd hafter, hpnl, ?_, ?_, rfl, rfl, rfl, rfl, rfl⟩
    · rw [hbal, htotal, hpnl]
    · rw [hbal, hlocked]

section Dispatch

variable {s : EngineState} {e : EngineInputEvent} {p : IndexPriceUpdated}
  (hp : e.payload = .indexPriceUpdated p)

include hp

theorem dispatch_swept (hseq : s.lastObserverSeq < p.observerSeq) : dispatch s e =
    (((liquidationsOf s p).map PositionLiquidated.userId).foldl drafted (markedState s p),
      (liquidationsOf s p).flatMap fun l =>
        .positionLiquidated l :: accountEvents (markedState s p) l.userId) := by
  have hout := dispatch_outcome s e
  generalize dispatch s e = r at hout
  cases hout with
  | swept p' hp' =>
    obtain rfl := InputPayload.indexPriceUpdated.inj (hp'.symm.trans hp)
    rfl
  | stale p' hp' hstale =>
    obtain rfl := InputPayload.indexPriceUpdated.inj (hp'.symm.trans hp)
    exact absurd hseq (not_lt.mpr hstale)
  | opened p hp' | deposited p hp' | rejected o hp' | placed o hp' | missed c hp' | cancelled c hp' =>
    rw [hp] at hp'
    cases hp'

theorem dispatch_stale (hseq : (p.observerSeq : ℤ) ≤ s.lastObserverSeq) : dispatch s e = (s, []) := by
  unfold dispatch
  rw [hp]
  exact if_pos hseq

theorem liquidated_process (hfresh : ¬ alreadyApplied s e = true)
    (hseq : s.lastObserverSeq < p.observerSeq) (id : StreamId) :
    liquidated ((process s e id).2.map EngineOutputEvent.payload) = liquidationsOf s p := by
  rw [process_payloads, reduce_of_new hfresh, dispatch_swept hp hseq, liquidated_drafts]

theorem process_swept (hkeys : KeysOK s) (hamounts : AllAccounts (fun _ => Amounts) s)
    (hfresh : ¬ alreadyApplied s e = true) (hseq : s.lastObserverSeq < p.observerSeq)
    (id : StreamId) : Swept s p.price (process s e id).1 (liquidationsOf s p) := by
  have hcore := process_new hfresh id
  have hsame := foldl_drafted_same (markedState s p)
    ((liquidationsOf s p).map PositionLiquidated.userId)
  rw [dispatch_swept hp hseq] at hcore
  refine swept_of_records hkeys hamounts p (fun v => ?_) ?_ ?_
  · rw [← swept_records hkeys, records, hcore.balances, hcore.positions]
    rfl
  · rw [hcore.bids, hsame.core, markedState, liquidationSweep_core]
    rfl
  · rw [hcore.asks, hsame.core, markedState, liquidationSweep_core]
    rfl

end Dispatch

/-- The liquidation sweep is exact and complete, and does not see the order of the position map.
A stale event changes no more than the bookkeeping. -/
theorem liquidation_sweep {market : MarketConfig} {s : EngineState}
    (h : Reachable engineInputEventSchema market s) {e : EngineInputEvent}
    (hfresh : ¬ alreadyApplied s e = true) {p : IndexPriceUpdated}
    (hp : e.payload = .indexPriceUpdated p) (id : StreamId) :
    let liquidations (r : EngineState × List EngineOutputEvent) :=
      liquidated (r.2.map EngineOutputEvent.payload)
    (s.lastObserverSeq < p.observerSeq →
      Swept s p.price (process s e id).1 (liquidations (process s e id)) ∧
        ∀ t, SameUpToOrder s t → SameUpToOrder (process s e id).1 (process t e id).1 ∧
          (liquidations (process t e id)).Perm (liquidations (process s e id))) ∧
      ((p.observerSeq : ℤ) ≤ s.lastObserverSeq → process s e id =
        ({ s with
            lastInputId := id
            appliedCount := s.appliedCount + 1
            appliedCommandIds := recordedIds s.appliedCommandIds e.commandId }, [])) := by
  have hkeys := reachable_keysOK h
  dsimp only
  refine ⟨fun hseq => ?_, fun hseq => ?_⟩
  · rw [liquidated_process hp hfresh hseq]
    refine ⟨process_swept hp hkeys (reachable_amounts h) hfresh hseq id, fun t ht => ?_⟩
    have hfresh' : ¬ alreadyApplied t e = true := by rwa [alreadyApplied_alike ht.alike]
    have hseq' : t.lastObserverSeq < p.observerSeq := by rwa [ht.rest]
    rw [liquidated_process hp hfresh' hseq', liquidationsOf_eq, liquidationsOf_eq]
    exact ⟨process_same ht hkeys e id, (doomed_perm ht.alike p.price).map _⟩
  · simp only [process, reduce_of_new hfresh, dispatch_stale hp hseq, stampAll]

open Fixture in
/-- A long and a short, a price that liquidates the long, and a stale one. -/
theorem liquidation_sweep_long :
    let tick (price : ℚ) : EngineInputEvent := evt none (.indexPriceUpdated ⟨"BTCUSDT", price, 5, 0⟩)
    let s := (run (createState MARKET) (numbered [user "m" 1000, user "t" 1000,
      place "m" "a1" .Ask .LIMIT 100 10 1 1000, place "t" "b1" .Bid .LIMIT 100 10 10 100])).1
    let r := process s (tick 80) ⟨9, 0⟩
    let ls := liquidated (r.2.map EngineOutputEvent.payload)
    ls = [⟨"t", 80, -200⟩] ∧ Swept s 80 r.1 ls ∧ (process r.1 (tick 60) ⟨10, 0⟩).2 = [] := by
  intro tick s r ls
  have hs : Reachable engineInputEventSchema MARKET s := reachable_run .init (by decide +kernel)
  have hr : Reachable engineInputEventSchema MARKET r.1 := .event hs (tick 80) (by decide +kernel) _
  have hswept := (liquidation_sweep hs (e := tick 80) (by decide +kernel) rfl ⟨9, 0⟩).1
  have hstale := (liquidation_sweep hr (e := tick 60) (by decide +kernel) rfl ⟨10, 0⟩).2
  exact ⟨by decide +kernel, (hswept (by decide +kernel)).1,
    congrArg Prod.snd (hstale (by decide +kernel))⟩

end Engine

end Perps
