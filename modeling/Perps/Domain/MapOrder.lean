import Perps.Domain.Reachable
import Perps.Domain.Sweep
import Perps.Domain.Fills

/-! Neither the order of the two maps nor the counters that only `process` reads
matter to the handlers: two states that agree up to them are taken by every
operation to states that agree up to them, with the same drafts. The liquidation
sweep, which goes through a map, is the one operation whose drafts may come in
another order. -/

namespace Perps

open Lib

namespace Engine

variable {d : ℕ} {R : List String → List String → Prop} [OrdMap.KeyOrder R]

/-- `t` agrees with `s` on everything but the order of the maps and the last
input id, and has counted `d` events more. The positions, which the sweep goes
through, are in orders that `R` relates. -/
structure Alike (d : ℕ) (R : List String → List String → Prop) [OrdMap.KeyOrder R]
    (s t : EngineState) : Prop where
  rest : t = { s with
    balances := t.balances
    positions := t.positions
    lastInputId := t.lastInputId
    appliedCount := s.appliedCount + d }
  balances : ∀ u, t.balances.get? u = s.balances.get? u
  positions : ∀ u, t.positions.get? u = s.positions.get? u
  positionKeys : R s.positions.keys t.positions.keys
  /-- Where `R` is exact, the balances are in the same order too. -/
  balanceKeys : OrdMap.KeyOrder.exact R → t.balances.keys = s.balances.keys

theorem SameUpToOrder.refl (s : EngineState) : SameUpToOrder s s := ⟨rfl, fun _ => rfl, fun _ => rfl⟩

theorem SameUpToOrder.trans {s t u : EngineState} (h : SameUpToOrder s t)
    (h' : SameUpToOrder t u) : SameUpToOrder s u :=
  ⟨by rw [h'.rest, h.rest], fun v => (h'.balances v).trans (h.balances v),
    fun v => (h'.positions v).trans (h.positions v)⟩

theorem SameUpToOrder.lastInputId {s t : EngineState} (h : SameUpToOrder s t) :
    t.lastInputId = s.lastInputId := by rw [h.rest]

theorem SameUpToOrder.alike {s t : EngineState} (h : SameUpToOrder s t) :
    Alike 0 OrdMap.AnyOrder s t :=
  ⟨by rw [h.rest]; rfl, h.balances, h.positions, trivial,
    fun hR => hR.elim⟩

namespace Alike

variable {s t u : EngineState}

theorem sameUpToOrder (h : Alike 0 R s t) (hid : t.lastInputId = s.lastInputId) :
    SameUpToOrder s t :=
  ⟨by rw [h.rest, hid]; rfl, h.balances, h.positions⟩

theorem then_same (h : Alike d OrdMap.AnyOrder s t) (hu : SameUpToOrder t u) :
    Alike d OrdMap.AnyOrder s u :=
  ⟨by rw [hu.rest, h.rest], fun v => (hu.balances v).trans (h.balances v),
    fun v => (hu.positions v).trans (h.positions v), trivial, fun hR => hR.elim⟩

theorem bal (h : Alike d R s t) (v : String) : t.bal v = s.bal v := by
  unfold EngineState.bal
  rw [h.balances]

theorem pos (h : Alike d R s t) (v : String) : t.pos v = s.pos v := by
  unfold EngineState.pos
  rw [h.positions, h.rest]

/-- States with the same fields and maps with the same lookups. -/
theorem mk' (hrest : t = { s with
      balances := t.balances
      positions := t.positions
      lastInputId := t.lastInputId
      appliedCount := s.appliedCount + d })
    {b b' : OrdMap String Balance} {p p' : OrdMap String Position}
    (hb : ∀ v, b'.get? v = b.get? v) (hp : ∀ v, p'.get? v = p.get? v) (hR : R p.keys p'.keys)
    (hE : OrdMap.KeyOrder.exact R → b'.keys = b.keys) :
    Alike d R { s with balances := b, positions := p }
      { t with balances := b', positions := p' } := by
  refine ⟨?_, hb, hp, hR, hE⟩
  rw [hrest]

theorem setBalance (h : Alike d R s t) (v : String) (b : Balance) :
    Alike d R { s with balances := s.balances.set v b }
      { t with balances := t.balances.set v b } := by
  refine mk' (b := s.balances.set v b) h.rest (fun w => ?_) h.positions h.positionKeys fun hR => ?_
  · rw [OrdMap.get?_set, OrdMap.get?_set, h.balances]
  · exact (OrdMap.keyOrder_set h.balances (h.balanceKeys hR).symm v b b).symm

theorem levels (h : Alike d R s t) (side : Side) : levelsFor t side = levelsFor s side := by
  rw [h.rest]
  cases side <;> rfl

theorem setLevels (h : Alike d R s t) (side : Side) (levels : List PriceLevel) :
    Alike d R (Perps.setLevels s side levels) (Perps.setLevels t side levels) := by
  cases side
  · exact ⟨by rw [Perps.setLevels, h.rest]; rfl, h.balances, h.positions, h.positionKeys, h.balanceKeys⟩
  · exact ⟨by rw [Perps.setLevels, h.rest]; rfl, h.balances, h.positions, h.positionKeys, h.balanceKeys⟩

theorem market (h : Alike d R s t) : t.market = s.market := by rw [h.rest]

theorem seq (h : Alike d R s t) : t.seq = s.seq := by rw [h.rest]

theorem lastTradePrice (h : Alike d R s t) (p : ℚ) :
    Alike d R { s with lastTradePrice := p } { t with lastTradePrice := p } := by
  refine ⟨?_, h.balances, h.positions, h.positionKeys, h.balanceKeys⟩
  rw [h.rest]

theorem nextSeq (h : Alike d R s t) :
    Alike d R (Engine.nextSeq s).1 (Engine.nextSeq t).1 ∧
      (Engine.nextSeq t).2 = (Engine.nextSeq s).2 := by
  refine ⟨⟨?_, h.balances, h.positions, h.positionKeys, h.balanceKeys⟩, congrArg (· + 1) h.seq⟩
  simp only [Engine.nextSeq]
  rw [h.rest]

theorem ensureBalance (h : Alike d R s t) (v : String) :
    Alike d R (Perps.ensureBalance s v).1 (Perps.ensureBalance t v).1 := by
  unfold Perps.ensureBalance
  rw [h.balances v]
  cases s.balances.get? v with
  | some b => exact h
  | none => exact h.setBalance v .zero

theorem credit (h : Alike d R s t) (v : String) (a : ℚ) :
    Alike d R (Perps.credit s v a) (Perps.credit t v a) := by
  rw [credit_eq, credit_eq, h.bal]
  exact h.setBalance v _

theorem release (h : Alike d R s t) (v : String) (a : ℚ) :
    Alike d R (Perps.release s v a).1 (Perps.release t v a).1 := by
  rw [release_eq, release_eq, h.bal]
  exact h.setBalance v _

theorem lock (h : Alike d R s t) (v : String) (a : ℚ) :
    Alike d R (Perps.lock s v a).1 (Perps.lock t v a).1 ∧
      (Perps.lock t v a).2 = (Perps.lock s v a).2 := by
  have hsnd : (Perps.lock t v a).2 = (Perps.lock s v a).2 := by rw [lock_snd, lock_snd, h.bal]
  refine ⟨?_, hsnd⟩
  cases hl : (Perps.lock s v a).2 with
  | true =>
    rw [lock_fst s v a hl, lock_fst t v a (hsnd.trans hl), h.bal]
    exact h.setBalance v _
  | false =>
    rw [lock_snd] at hl
    have hlow : (s.bal v).free + 1e-6 < a := by simpa using hl
    simp only [Perps.lock, ensureBalance_snd]
    rw [h.bal, if_pos hlow, if_pos hlow]
    exact h.ensureBalance v

theorem insertResting (h : Alike d R s t) (order : RestingOrder) :
    Alike d R (Perps.insertResting s order) (Perps.insertResting t order) := by
  unfold Perps.insertResting
  rw [h.levels]
  exact h.setLevels _ _

theorem balanceDraft (h : Alike d R s t) (v : String) :
    Alike d R (Engine.balanceDraft s v).1 (Engine.balanceDraft t v).1 ∧
      (Engine.balanceDraft t v).2 = (Engine.balanceDraft s v).2 := by
  refine ⟨h.ensureBalance v, ?_⟩
  simp only [Engine.balanceDraft, ensureBalance_snd, h.bal]

theorem setPosition (h : Alike d R s t) (v : String) (p : Position) :
    Alike d R { s with positions := s.positions.set v p }
      { t with positions := t.positions.set v p } := by
  refine mk' (p := s.positions.set v p) h.rest h.balances (fun w => ?_) ?_ h.balanceKeys
  · rw [OrdMap.get?_set, OrdMap.get?_set, h.positions]
  · exact OrdMap.keyOrder_set h.positions h.positionKeys v p p

theorem ensurePosition (h : Alike d R s t) (v : String) :
    Alike d R (Perps.ensurePosition s v).1 (Perps.ensurePosition t v).1 := by
  unfold Perps.ensurePosition
  rw [h.positions v]
  cases s.positions.get? v with
  | some p => exact h
  | none =>
    have hflat : Position.flat v t.markPrice = Position.flat v s.markPrice := by rw [h.rest]
    dsimp only
    rw [hflat]
    exact h.setPosition v _

theorem withAccount (h : Alike d R s t) (v : String) (r : Option Balance × Position) :
    Alike d R (s.withAccount v r) (t.withAccount v r) := by
  obtain ⟨b, p⟩ := r
  cases b with
  | none => exact h.setPosition v p
  | some b => exact (h.setBalance v b).setPosition v p

theorem applyFill (h : Alike d R s t) (v : String) (side : Side) (price f fm lev : ℚ) :
    Alike d R (Perps.applyFill s v side price f fm lev)
      (Perps.applyFill t v side price f fm lev) := by
  rw [applyFill_eq, applyFill_eq, h.bal, h.pos, h.market]
  exact h.withAccount v _

theorem positionDraft (h : Alike d R s t) (v : String) :
    Alike d R (Engine.positionDraft s v).1 (Engine.positionDraft t v).1 ∧
      (Engine.positionDraft t v).2 = (Engine.positionDraft s v).2 := by
  have hens := h.ensurePosition v
  have hsnd : (Perps.ensurePosition t v).2 = (Perps.ensurePosition s v).2 := by
    rw [ensurePosition_snd, ensurePosition_snd, h.pos]
  unfold Engine.positionDraft getPosition
  rw [h.positions]
  cases s.positions.get? v with
  | some p => exact ⟨h, rfl⟩
  | none => exact ⟨hens, by dsimp only; rw [hsnd]⟩

end Alike

/-- The outcomes of two handlers: states that are alike, and the same drafts. -/
structure SameOutcome (d : ℕ) (R : List String → List String → Prop) [OrdMap.KeyOrder R]
    (r r' : EngineState × List DraftOutput) : Prop where
  state : Alike d R r.1 r'.1
  drafts : r'.2 = r.2

/-! Placing an order -/

/-- The loops' variables agree, and the states are alike. -/
structure SameMatching (d : ℕ) (R : List String → List String → Prop) [OrdMap.KeyOrder R]
    (m n : Matching) : Prop where
  state : Alike d R m.state n.state
  remaining : n.remaining = m.remaining
  filledNotional : n.filledNotional = m.filledNotional
  makerTouched : n.makerTouched = m.makerTouched
  affected : n.affected = m.affected
  outs : n.outs = m.outs

section Place

variable (e : EnvelopeMeta) (o : PlaceOrder)

theorem SameMatching.settleFill {m n : Matching} (h : SameMatching d R m n) (maker : RestingOrder) :
    SameMatching d R (settleFill e o m maker) (settleFill e o n maker) := by
  obtain ⟨hs, hr, hf, hm, ha, ho⟩ := h
  have hlegs : Alike d R (filledLegs o m maker) (filledLegs o n maker) := by
    unfold filledLegs
    rw [hr]
    exact (hs.applyFill _ _ _ _ _ _).applyFill _ _ _ _ _ _
  have htrade (f : RestingOrder × ℚ) : tradeOf n.state e o 0 f = tradeOf m.state e o 0 f := by
    unfold tradeOf
    rw [hs.market, hs.seq]
  refine ⟨?_, ?_, ?_, ?_, ?_, ?_⟩
  · rw [settleFill_state, settleFill_state]
    exact (hlegs.lastTradePrice maker.price).nextSeq.1
  · rw [settleFill_remaining, settleFill_remaining, hr]
  · rw [settleFill_filledNotional, settleFill_filledNotional, hr, hf]
  · rw [settleFill_touched, settleFill_touched, hr, hm]
  · rw [settleFill_affected, settleFill_affected, ha]
  · rw [settleFill_outs, settleFill_outs, ho, hr, htrade]

theorem SameMatching.withLevels {m n : Matching} (h : SameMatching d R m n) (levels : List PriceLevel) :
    SameMatching d R (m.withLevels o levels) (n.withLevels o levels) :=
  ⟨h.state.setLevels _ levels, h.remaining, h.filledNotional, h.makerTouched, h.affected, h.outs⟩

theorem SameMatching.matchHead {m n : Matching} (h : SameMatching d R m n) :
    SameMatching d R (matchHead e o m) (matchHead e o n) := by
  have hlevels := h.state.levels (maker_side o.side)
  cases hl : levelsFor m.state (maker_side o.side) with
  | nil =>
    rw [hl] at hlevels
    unfold Engine.matchHead
    rw [hl, hlevels]
    exact h
  | cons l more =>
    obtain ⟨price, os⟩ := l
    cases os with
    | nil =>
      rw [hl] at hlevels
      unfold Engine.matchHead
      rw [hl, hlevels]
      exact h
    | cons maker rest =>
      rw [matchHead_eq e o hl, matchHead_eq e o (hlevels.trans hl), h.remaining]
      exact (h.settleFill e o maker).withLevels o _

theorem SameMatching.innerCond {m n : Matching} (h : SameMatching d R m n) :
    InnerCond o m ↔ InnerCond o n := by
  unfold InnerCond headOrders
  rw [h.remaining, h.state.levels]

theorem SameMatching.outerCond {m n : Matching} (h : SameMatching d R m n) :
    OuterCond o m ↔ OuterCond o n := by
  unfold OuterCond
  rw [h.remaining, h.state.levels]

theorem deltaDraft_same {s t : EngineState} (h : Alike d R s t) (side : Side) (price : ℚ) :
    deltaDraft t side price = deltaDraft s side price := by
  unfold deltaDraft
  rw [h.market, h.levels]

theorem SameMatching.matchLevel {m n : Matching} (h : SameMatching d R m n) :
    SameMatching d R (matchLevel e o m) (matchLevel e o n) := by
  have hlevels := h.state.levels (maker_side o.side)
  unfold Engine.matchLevel
  rw [hlevels]
  cases levelsFor m.state (maker_side o.side) with
  | nil => exact h
  | cons l more =>
    dsimp only
    have hloop := loop_sim (R := SameMatching d R) (fun _ _ h => h.innerCond o)
      (fun _ _ h => h.matchHead e o) (l.orders.length + 1) h
    obtain ⟨hs, hr, hf, hm, ha, ho⟩ := hloop
    rw [deltaDraft_same hs, hs.levels]
    exact ⟨hs.setLevels _ _, hr, hf, hm, ha, congrArg (· ++ _) ho⟩

theorem SameMatching.matchLoop {m n : Matching} (h : SameMatching d R m n) :
    SameMatching d R (matchLoop e o m) (matchLoop e o n) := by
  unfold Engine.matchLoop
  rw [h.state.levels]
  exact loop_sim (R := SameMatching d R) (fun _ _ h => h.outerCond o) (fun _ _ h => h.matchLevel e o) _ h

theorem settleRemainder_same {m n : Matching} (h : SameMatching d R m n) :
    Alike d R (settleRemainder e o m).1 (settleRemainder e o n).1 ∧
      (settleRemainder e o n).2 = (settleRemainder e o m).2 := by
  obtain ⟨hs, hr, hf, hm, ha, ho⟩ := h
  have hins := hs.nextSeq.1.insertResting (restingOrder e o m.remaining (nextSeq m.state).2)
  have hrel := hs.release o.userId (q (m.remaining * marginPerUnit o))
  unfold settleRemainder
  rw [hr, ho]
  dsimp only
  rw [hs.nextSeq.2, deltaDraft_same hins]
  by_cases h1 : o.orderType = .LIMIT ∧ m.remaining > 1e-9
  · rw [if_pos h1, if_pos h1]
    exact ⟨hins, rfl⟩
  · rw [if_neg h1, if_neg h1]
    by_cases h2 : o.orderType = .MARKET ∧ m.remaining > 1e-9
    · rw [if_pos h2, if_pos h2]
      exact ⟨hrel, rfl⟩
    · rw [if_neg h2, if_neg h2]
      exact ⟨hs, rfl⟩

theorem accountDrafts_sameOutcome (users : List String) {acc acc' : EngineState × List DraftOutput}
    (h : SameOutcome d R acc acc') :
    SameOutcome d R (users.foldl accountDrafts acc) (users.foldl accountDrafts acc') := by
  induction users generalizing acc acc' with
  | nil => exact h
  | cons u us ih =>
    have hbal := h.state.balanceDraft u
    have hpos := hbal.1.positionDraft u
    refine ih ⟨hpos.1, ?_⟩
    simp only [accountDrafts, h.drafts, hbal.2, hpos.2]

theorem placeAccepted_sameOutcome {s t : EngineState} (h : Alike d R s t) :
    SameOutcome d R (placeAccepted e o s) (placeAccepted e o t) := by
  have hstart : SameMatching d R (matchStart s o) (matchStart t o) := ⟨h, rfl, rfl, rfl, rfl, rfl⟩
  have hloop := hstart.matchLoop e o
  obtain ⟨hstate, houts⟩ := settleRemainder_same e o hloop
  have houts' : SameOutcome d R
      ((settleRemainder e o (matchLoop e o (matchStart s o))).1,
        (settleRemainder e o (matchLoop e o (matchStart s o))).2.1 ++
          (matchLoop e o (matchStart s o)).makerTouched.entries.map makerReport)
      ((settleRemainder e o (matchLoop e o (matchStart t o))).1,
        (settleRemainder e o (matchLoop e o (matchStart t o))).2.1 ++
          (matchLoop e o (matchStart t o)).makerTouched.entries.map makerReport) :=
    ⟨hstate, by rw [houts, hloop.makerTouched]⟩
  have hacc := accountDrafts_sameOutcome (matchLoop e o (matchStart s o)).affected houts'
  have hreport : takerReport o (matchLoop e o (matchStart t o))
      (settleRemainder e o (matchLoop e o (matchStart t o))).2.2 =
        takerReport o (matchLoop e o (matchStart s o))
          (settleRemainder e o (matchLoop e o (matchStart s o))).2.2 := by
    unfold takerReport
    rw [houts, hloop.remaining, hloop.filledNotional]
  unfold placeAccepted
  dsimp only
  rw [hloop.affected, hreport]
  exact ⟨hacc.state, congrArg (· ++ _) hacc.drafts⟩

theorem placeRejection_same {s t : EngineState} (h : Alike d R s t) :
    placeRejection t o = placeRejection s o := by
  have href : refPrice t o = refPrice s o := by
    have hmark : t.markPrice = s.markPrice := by rw [h.rest]
    unfold refPrice bestPrice
    rw [h.levels, hmark]
  have hhas : t.balances.has o.userId = s.balances.has o.userId := by
    unfold OrdMap.has
    rw [h.balances]
  unfold placeRejection
  rw [href, hhas, h.market]

theorem onPlaceOrder_sameOutcome {s t : EngineState} (h : Alike d R s t) :
    SameOutcome d R (onPlaceOrder s e o) (onPlaceOrder t e o) := by
  obtain ⟨hlock, hlocked⟩ := h.lock o.userId o.margin
  unfold onPlaceOrder
  rw [placeRejection_same o h]
  cases placeRejection s o with
  | some reason => exact ⟨h, rfl⟩
  | none =>
    dsimp only
    rw [hlocked]
    cases (lock s o.userId o.margin).2 with
    | true => exact placeAccepted_sameOutcome e o hlock
    | false => exact ⟨hlock, rfl⟩

end Place

/-! The other handlers -/

variable {s t : EngineState}

theorem balanceDraft_sameOutcome (h : Alike d R s t) (u : String) :
    SameOutcome d R ((balanceDraft s u).1, [(balanceDraft s u).2])
      ((balanceDraft t u).1, [(balanceDraft t u).2]) :=
  ⟨(h.balanceDraft u).1, congrArg (fun x => [x]) (h.balanceDraft u).2⟩

theorem onUserCreated_sameOutcome (h : Alike d R s t) (p : UserCreated) :
    SameOutcome d R (onUserCreated s p) (onUserCreated t p) := by
  unfold onUserCreated
  dsimp only
  split_ifs
  · exact balanceDraft_sameOutcome ((h.ensureBalance _).credit _ _) _
  · exact balanceDraft_sameOutcome (h.ensureBalance _) _

theorem onBalanceDeposited_sameOutcome (h : Alike d R s t) (p : BalanceDeposited) :
    SameOutcome d R (onBalanceDeposited s p) (onBalanceDeposited t p) :=
  balanceDraft_sameOutcome ((h.ensureBalance _).credit _ _) _

theorem cancelResting_same (h : Alike d R s t) (side : Side) (price : ℚ) (orderId : String) :
    Alike d R (cancelResting s side price orderId).1 (cancelResting t side price orderId).1 ∧
      (cancelResting t side price orderId).2 = (cancelResting s side price orderId).2 := by
  unfold cancelResting
  dsimp only
  rw [h.levels]
  cases (levelsFor s side).find? fun l => l.price = price with
  | none => exact ⟨h, rfl⟩
  | some level =>
    dsimp only
    cases level.orders.find? fun o => o.orderId = orderId with
    | none => exact ⟨h, rfl⟩
    | some removed => exact ⟨h.setLevels _ _, rfl⟩

theorem onCancelOrder_sameOutcome (h : Alike d R s t) (e : EnvelopeMeta) (c : CancelOrder) :
    SameOutcome d R (onCancelOrder s e c) (onCancelOrder t e c) := by
  have htarget : cancelTarget t c = cancelTarget s c := by
    unfold cancelTarget
    rw [h.levels]
  obtain ⟨hstate, hremoved⟩ := cancelResting_same h c.side c.price c.orderId
  unfold onCancelOrder
  rw [htarget]
  cases cancelTarget s c with
  | none => exact ⟨h, rfl⟩
  | some target =>
    generalize cancelResting s c.side c.price c.orderId = r at hstate hremoved
    generalize cancelResting t c.side c.price c.orderId = r' at hstate hremoved
    obtain ⟨s', x⟩ := r
    obtain ⟨t', y⟩ := r'
    obtain rfl : y = x := hremoved
    cases y with
    | none => exact ⟨hstate, rfl⟩
    | some removed =>
      have hrel := hstate.release c.userId removed.margin
      have hbal := hrel.balanceDraft c.userId
      have hmoved : (release t' c.userId removed.margin).2 =
          (release s' c.userId removed.margin).2 := by
        rw [release_eq, release_eq, hstate.bal]
      refine ⟨hbal.1, ?_⟩
      dsimp only
      rw [deltaDraft_same hrel, hbal.2, hmoved]

/-! Marking and liquidating -/

theorem markToMarket_same (h : Alike d R s t) (markPrice : ℚ) :
    Alike d R (markToMarket s markPrice) (markToMarket t markPrice) := by
  refine ⟨?_, h.balances, fun v => ?_, ?_, h.balanceKeys⟩
  · unfold markToMarket
    rw [h.rest]
  · unfold markToMarket
    rw [OrdMap.get?_mapValues, OrdMap.get?_mapValues, h.positions]
  · unfold markToMarket
    rw [OrdMap.keys_mapValues, OrdMap.keys_mapValues]
    exact h.positionKeys

/-- The sweeps go through the same positions, in some order. -/
theorem doomed_perm (h : Alike d R s t) (markPrice : ℚ) :
    (doomed t markPrice).Perm (doomed s markPrice) :=
  (OrdMap.perm_of_get?_eq h.positions).filter _

theorem doomed_same (h : Alike d R s t) {markPrice : ℚ}
    (horder : (doomed t markPrice).map Prod.fst = (doomed s markPrice).map Prod.fst) :
    doomed t markPrice = doomed s markPrice :=
  OrdMap.entries_eq_of_keys h.positions (List.filter_subset_self _)
    (List.filter_subset_self _) horder

/-- Sweeps through the same entries. -/
theorem liquidateOne_same {acc acc' : EngineState × List PositionLiquidated}
    (h : Alike d R acc.1 acc'.1) (markPrice : ℚ) {x : String × Position} (hx : x.2.userId = x.1) :
    Alike d R (liquidateOne markPrice acc x).1 (liquidateOne markPrice acc' x).1 := by
  have hone := liquidateOne_eq markPrice acc hx
  have hone' := liquidateOne_eq markPrice acc' hx
  rw [hone, hone', h.bal]
  split_ifs
  · exact h.withAccount _ _
  · exact h

theorem liquidateAll_same {es : List (String × Position)} (hes : ∀ x ∈ es, x.2.userId = x.1)
    {acc acc' : EngineState × List PositionLiquidated} (h : Alike d R acc.1 acc'.1)
    (markPrice : ℚ) :
    Alike d R (es.foldl (liquidateOne markPrice) acc).1
      (es.foldl (liquidateOne markPrice) acc').1 := by
  induction es generalizing acc acc' with
  | nil => exact h
  | cons x xs ih =>
    exact ih (fun y hy => hes y (List.mem_cons_of_mem _ hy))
      (liquidateOne_same h markPrice (hes x List.mem_cons_self))

theorem liquidationSweep_same (h : Alike d R s t) (hkeys : KeysOK s) (markPrice : ℚ) :
    Alike d R (liquidationSweep s markPrice).1 (liquidationSweep t markPrice).1 := by
  have hkeys' : KeysOK t := keysOK_of_pos hkeys h.pos
  have hrecords (v : String) : records (liquidationSweep t markPrice).1 v =
      records (liquidationSweep s markPrice).1 v := by
    rw [liquidationSweep_records hkeys, liquidationSweep_records hkeys', h.positions, h.bal,
      records, records, h.balances, h.positions]
  refine ⟨?_, fun v => congrArg Prod.fst (hrecords v), fun v => congrArg Prod.snd (hrecords v), ?_,
    fun hR => ?_⟩
  · rw [liquidationSweep_core t, liquidationSweep_core s, h.rest]
  · rw [liquidationSweep_keys, liquidationSweep_keys]
    exact h.positionKeys
  · have hpos : t.positions = s.positions :=
      OrdMap.eq_of_keys h.positions (OrdMap.KeyOrder.eq_of_exact hR h.positionKeys).symm
    have hall := @liquidateAll_same d R _ s.positions.entries (fun x hx => hkeys.entry hx) (s, [])
      (t, []) h markPrice
    have hbal := hall.balanceKeys hR
    unfold liquidationSweep
    rw [hpos]
    exact hbal

/-- Both records of the user are in the maps. -/
def Stored (s : EngineState) (u : String) : Prop :=
  (∃ b, s.balances.get? u = some b) ∧ ∃ p, s.positions.get? u = some p

/-- Every liquidated user has both records. -/
theorem liquidationSweep_stored {s : EngineState} (hkeys : KeysOK s) (markPrice : ℚ) :
    ∀ l ∈ (liquidationSweep s markPrice).2, Stored (liquidationSweep s markPrice).1 l.userId := by
  intro l hl
  rw [liquidationSweep_snd] at hl
  obtain ⟨x, hx, rfl⟩ := List.mem_map.mp hl
  obtain ⟨hmem, hu⟩ := List.mem_filter.mp hx
  have hrec := liquidationSweep_records hkeys markPrice x.1
  rw [(s.positions.mem_entries_iff x.1 x.2).mp hmem, Option.filter_some_pos hu] at hrec
  show Stored _ x.2.userId
  rw [hkeys.entry hmem]
  exact ⟨⟨_, congrArg Prod.fst hrec⟩, _, congrArg Prod.snd hrec⟩

/-- The drafts of the liquidations do not change the state, and are three each. -/
theorem liquidationDrafts_fold (liqs : List PositionLiquidated)
    (acc : EngineState × List DraftOutput) (h : ∀ l ∈ liqs, Stored acc.1 l.userId) :
    (liqs.foldl liquidationDrafts acc).1 = acc.1 ∧
      (liqs.foldl liquidationDrafts acc).2.length = acc.2.length + 3 * liqs.length := by
  induction liqs generalizing acc with
  | nil => exact ⟨rfl, rfl⟩
  | cons l ls ih =>
    obtain ⟨⟨b, hb⟩, p, hp⟩ := h l List.mem_cons_self
    have hstate : (liquidationDrafts acc l).1 = acc.1 := by
      simp only [liquidationDrafts, balanceDraft, ensureBalance, hb, positionDraft, getPosition, hp]
    have hlen : (liquidationDrafts acc l).2.length = acc.2.length + 3 := by
      simp [liquidationDrafts]
    obtain ⟨h1, h2⟩ := ih (liquidationDrafts acc l) fun k hk => by
      rw [hstate]
      exact h k (List.mem_cons_of_mem _ hk)
    rw [List.foldl_cons, h1, h2, hstate, hlen, List.length_cons]
    exact ⟨rfl, by omega⟩

theorem liquidationDrafts_sameOutcome (liqs : List PositionLiquidated)
    {acc acc' : EngineState × List DraftOutput} (h : SameOutcome d R acc acc') :
    SameOutcome d R (liqs.foldl liquidationDrafts acc) (liqs.foldl liquidationDrafts acc') := by
  induction liqs generalizing acc acc' with
  | nil => exact h
  | cons l ls ih =>
    have hbal := h.state.balanceDraft l.userId
    have hpos := hbal.1.positionDraft l.userId
    refine ih ⟨hpos.1, ?_⟩
    simp only [liquidationDrafts, h.drafts, hbal.2, hpos.2]

theorem markedState_alike (h : Alike d R s t) (p : IndexPriceUpdated) :
    Alike d R (markToMarket { s with lastObserverSeq := p.observerSeq } p.price)
      (markToMarket { t with lastObserverSeq := p.observerSeq } p.price) := by
  have hseq : Alike d R { s with lastObserverSeq := p.observerSeq }
      { t with lastObserverSeq := p.observerSeq } := by
    refine ⟨?_, h.balances, h.positions, h.positionKeys, h.balanceKeys⟩
    rw [h.rest]
  exact markToMarket_same hseq p.price

theorem onIndexPrice_alike (h : Alike d R s t) (hkeys : KeysOK s) (p : IndexPriceUpdated) :
    Alike d R (onIndexPrice s p).1 (onIndexPrice t p).1 ∧
      (onIndexPrice t p).2.length = (onIndexPrice s p).2.length := by
  have hseq : t.lastObserverSeq = s.lastObserverSeq := by rw [h.rest]
  unfold onIndexPrice
  rw [hseq]
  split_ifs
  · exact ⟨h, rfl⟩
  · have hmark := markedState_alike h p
    have hmarked := keysOK_marked hkeys p
    have hstate := liquidationSweep_same hmark hmarked p.price
    obtain ⟨h1, h2⟩ := liquidationDrafts_fold _ ((liquidationSweep (markToMarket
      { s with lastObserverSeq := p.observerSeq } p.price) p.price).1, [])
      (liquidationSweep_stored hmarked p.price)
    obtain ⟨h3, h4⟩ := liquidationDrafts_fold _ ((liquidationSweep (markToMarket
      { t with lastObserverSeq := p.observerSeq } p.price) p.price).1, [])
      (liquidationSweep_stored (keysOK_of_pos hmarked hmark.pos) p.price)
    refine ⟨?_, ?_⟩
    · dsimp only
      rw [h1, h3]
      exact hstate
    · dsimp only
      rw [h2, h4, liquidationSweep_snd, liquidationSweep_snd, List.length_map, List.length_map,
        (doomed_perm hmark p.price).length_eq]

/-- The users that the event liquidates, in the order of the position map. -/
def liquidatedBy (s : EngineState) (e : EngineInputEvent) : List String :=
  match e.payload with
  | .indexPriceUpdated p =>
    if (p.observerSeq : ℤ) ≤ s.lastObserverSeq then [] else (doomed s p.price).map Prod.fst
  | _ => []

/-- The drafts come in the same order if the liquidations do. -/
theorem onIndexPrice_sameOutcome (h : Alike d R s t) (hkeys : KeysOK s) {e : EngineInputEvent}
    {p : IndexPriceUpdated} (hp : e.payload = .indexPriceUpdated p)
    (horder : liquidatedBy t e = liquidatedBy s e) :
    SameOutcome d R (onIndexPrice s p) (onIndexPrice t p) := by
  have hseq : t.lastObserverSeq = s.lastObserverSeq := by rw [h.rest]
  unfold liquidatedBy at horder
  unfold onIndexPrice
  rw [hp, hseq] at horder
  rw [hseq]
  dsimp only at horder
  split_ifs at horder ⊢
  · exact ⟨h, rfl⟩
  · have hmark := markedState_alike h p
    have hmarked := keysOK_marked hkeys p
    have hdoomed := doomed_same hmark (by
      rw [doomed_markToMarket, doomed_markToMarket, List.map_map, List.map_map]
      exact horder)
    dsimp only
    rw [liquidationSweep_snd, liquidationSweep_snd, hdoomed]
    exact liquidationDrafts_sameOutcome _ ⟨liquidationSweep_same hmark hmarked p.price, rfl⟩

theorem dispatch_sameOutcome (h : Alike d R s t) (hkeys : KeysOK s) {e : EngineInputEvent}
    (horder : liquidatedBy t e = liquidatedBy s e) : SameOutcome d R (dispatch s e) (dispatch t e) := by
  unfold dispatch
  cases hp : e.payload with
  | userCreated p => exact onUserCreated_sameOutcome h p
  | balanceDeposited p => exact onBalanceDeposited_sameOutcome h p
  | orderPlace o => exact onPlaceOrder_sameOutcome e.toEnvelopeMeta o h
  | orderCancel c => exact onCancelOrder_sameOutcome h e.toEnvelopeMeta c
  | indexPriceUpdated p => exact onIndexPrice_sameOutcome h hkeys hp horder

/-- Whatever the order of the liquidations, the states are alike and there are as
many drafts. -/
theorem dispatch_alike (h : Alike d R s t) (hkeys : KeysOK s) (e : EngineInputEvent) :
    Alike d R (dispatch s e).1 (dispatch t e).1 ∧
      (dispatch t e).2.length = (dispatch s e).2.length := by
  by_cases hprice : ∃ p, e.payload = .indexPriceUpdated p
  · obtain ⟨p, hp⟩ := hprice
    unfold dispatch
    rw [hp]
    exact onIndexPrice_alike h hkeys p
  · have hnone (s : EngineState) : liquidatedBy s e = [] := by
      unfold liquidatedBy
      cases hp : e.payload with
      | indexPriceUpdated p => exact absurd ⟨p, hp⟩ hprice
      | _ => rfl
    have hout := dispatch_sameOutcome h hkeys ((hnone t).trans (hnone s).symm)
    exact ⟨hout.state, congrArg List.length hout.drafts⟩

theorem alreadyApplied_alike (h : Alike d R s t) (e : EngineInputEvent) :
    alreadyApplied t e = alreadyApplied s e := by
  unfold alreadyApplied
  rw [h.rest]

/-- The bookkeeping of `process` keeps alike states alike. -/
theorem Alike.bookkeeping (h : Alike d R s t) (id : StreamId) (c : Option String) (n : ℕ) :
    Alike d R
      { s with
        lastInputId := id
        appliedCommandIds := recordedIds s.appliedCommandIds c
        appliedCount := s.appliedCount + 1
        seq := s.seq + n }
      { t with
        lastInputId := id
        appliedCommandIds := recordedIds t.appliedCommandIds c
        appliedCount := t.appliedCount + 1
        seq := t.seq + n } := by
  refine ⟨?_, h.balances, h.positions, h.positionKeys, h.balanceKeys⟩
  rw [h.rest]
  simp only [Nat.add_right_comm]

theorem process_alike (h : Alike d R s t) (hkeys : KeysOK s) (e : EngineInputEvent)
    (id : StreamId) : Alike d R (process s e id).1 (process t e id).1 := by
  have happlied := alreadyApplied_alike h e
  by_cases ha : alreadyApplied s e = true
  · rw [process_applied ha, process_applied (happlied.trans ha)]
    exact ⟨by rw [h.rest], h.balances, h.positions, h.positionKeys, h.balanceKeys⟩
  · obtain ⟨hstate, hlen⟩ := dispatch_alike h hkeys e
    rw [process_fst, process_fst, reduce_of_new ha, reduce_of_new (happlied ▸ ha)]
    dsimp only
    rw [hlen]
    exact hstate.bookkeeping id e.commandId _

/-- Alike states answer an event with the same outputs. -/
theorem process_outputs (h : Alike d R s t) (hkeys : KeysOK s) {e : EngineInputEvent}
    (horder : liquidatedBy t e = liquidatedBy s e) (id : StreamId) :
    (process t e id).2 = (process s e id).2 := by
  have happlied := alreadyApplied_alike h e
  by_cases ha : alreadyApplied s e = true
  · rw [process_applied ha, process_applied (happlied.trans ha)]
  · obtain ⟨hstate, hdrafts⟩ := dispatch_sameOutcome h hkeys horder
    unfold process
    rw [reduce_of_new ha, reduce_of_new (happlied ▸ ha), hdrafts]
    exact stampAll_snd_congr _ _ hstate.seq

theorem process_lastInputId (s : EngineState) (e : EngineInputEvent) (id : StreamId) :
    (process s e id).1.lastInputId = id := by
  rw [process_fst]

/-- Processing an event does not see the order of the maps. -/
theorem process_same (h : SameUpToOrder s t) (hkeys : KeysOK s) (e : EngineInputEvent)
    (id : StreamId) : SameUpToOrder (process s e id).1 (process t e id).1 :=
  (process_alike h.alike hkeys e id).sameUpToOrder
    ((process_lastInputId t e id).trans (process_lastInputId s e id).symm)

end Engine

end Perps
