import Perps.Proofs.Amounts

/-! A cancellation undoes a placement. A limit order that crosses nothing comes to
rest whole, with all of its margin locked, and its cancellation takes it out of the
place where it was put and gives the margin back. -/

namespace Perps

open Lib

namespace Engine

def CrossesNothing (s : EngineState) (o : PlaceOrder) : Prop :=
  ∀ l ∈ levelsFor s (maker_side o.side), crosses o l.price = false

instance (s : EngineState) (o : PlaceOrder) : Decidable (CrossesNothing s o) :=
  inferInstanceAs (Decidable (∀ l ∈ levelsFor s (maker_side o.side), crosses o l.price = false))

/-! The placement -/

/-- The order as it comes to rest when nothing of it is filled. -/
def wholeOrder (s : EngineState) (e : EnvelopeMeta) (o : PlaceOrder) : RestingOrder :=
  restingOrder e o o.quantity (s.seq + 1)

theorem wholeOrder_margin (s : EngineState) (e : EnvelopeMeta) {o : PlaceOrder} (ho : o.Valid)
    (hg : Grid o.margin) : (wholeOrder s e o).margin = o.margin := by
  show q (o.quantity * (o.margin / o.quantity)) = o.margin
  rw [mul_div_cancel₀ _ ho.2.2.1.ne', q_of_grid hg]

/-- `t` is `s` with the order `x` of `o` at rest. -/
structure Rests (s : EngineState) (o : PlaceOrder) (x : RestingOrder) (t : EngineState) : Prop where
  market : t.market = s.market
  markPrice : t.markPrice = s.markPrice
  lastTradePrice : t.lastTradePrice = s.lastTradePrice
  own : levelsFor t o.side = insertLevels (levelsFor s o.side) x
  other : levelsFor t (maker_side o.side) = levelsFor s (maker_side o.side)
  balances : ∀ v, t.balances.get? v =
    if v = o.userId then some ((s.bal v).lock o.margin) else s.balances.get? v
  positions : ∀ v, t.positions.get? v =
    if v = o.userId then some (s.pos v) else s.positions.get? v

section Placement

variable {s : EngineState} {o : PlaceOrder} (hcross : CrossesNothing s o)

include hcross

/-- The loops of such an order do not start. -/
theorem matched_uncrossed (e : EnvelopeMeta) :
    matched s e o = matchStart (lock s o.userId o.margin).1 o := by
  refine loop_of_not _ _ ?_ _
  rintro ⟨-, level, hlevel, hc⟩
  rw [matchStart, lock_levels] at hlevel
  rw [hcross level (List.mem_of_mem_head? hlevel)] at hc
  cases hc

theorem placedState_uncrossed (e : EnvelopeMeta) (ht : o.orderType = .LIMIT)
    (hq : o.quantity > 1e-9) : placedState s e o =
      insertResting (nextSeq (lock s o.userId o.margin).1).1 (wholeOrder s e o) := by
  have hrem := settleRemainder_cases e o (matched s e o)
  show (settleRemainder e o (matched s e o)).1 = _
  generalize settleRemainder e o (matched s e o) = r at hrem
  rw [matched_uncrossed hcross e] at hrem
  cases hrem with
  | rests =>
    rw [wholeOrder, ← lock_seq s o.userId o.margin]
    rfl
  | refunded hm =>
    rw [ht] at hm
    cases hm
  | filled hr => exact absurd hq hr

end Placement

theorem placed_rests {s : EngineState} {e : EngineInputEvent} {o : PlaceOrder}
    (hacc : Accepted s e o) (hcross : CrossesNothing s o) (ht : o.orderType = .LIMIT)
    (hq : o.quantity > 1e-9) (id : StreamId) :
    Rests s o (wholeOrder s e.toEnvelopeMeta o) (process s e id).1 := by
  have hlock := lock_fst s o.userId o.margin hacc.funds
  have hplaced := placedState_uncrossed hcross e.toEnvelopeMeta ht hq
  have hcore := process_new hacc.fresh id
  have hdispatch : (dispatch s e).1 = drafted (placedState s e.toEnvelopeMeta o) o.userId := by
    rw [hacc.dispatch_eq, placeAccepted_eq, matched_uncrossed hcross]
    rfl
  have hsame := drafted_same (placedState s e.toEnvelopeMeta o) o.userId
  have hrest : (placedState s e.toEnvelopeMeta o).market = s.market ∧
      (placedState s e.toEnvelopeMeta o).markPrice = s.markPrice ∧
      (placedState s e.toEnvelopeMeta o).lastTradePrice = s.lastTradePrice := by
    rw [hplaced, hlock]
    unfold insertResting setLevels
    cases (wholeOrder s e.toEnvelopeMeta o).side <;> exact ⟨rfl, rfl, rfl⟩
  have hbal (v : String) : (placedState s e.toEnvelopeMeta o).bal v =
      if v = o.userId then (s.bal o.userId).lock o.margin else s.bal v := by
    rw [hplaced, hlock, insertResting, bal_setLevels]
    exact bal_set s _ v _
  have hpos (v : String) : (placedState s e.toEnvelopeMeta o).pos v = s.pos v := by
    rw [hplaced, hlock, insertResting, pos_setLevels]
    rfl
  rw [hdispatch] at hcore
  have hrecords (v : String) : records (process s e id).1 v =
      if v = o.userId then (some ((s.bal v).lock o.margin), some (s.pos v)) else records s v := by
    have hsame : records (process s e id).1 v =
        records (drafted (placedState s e.toEnvelopeMeta o) o.userId) v := by
      unfold records
      rw [hcore.balances, hcore.positions]
    rw [hsame, drafted_records]
    split_ifs with hv
    · rw [hbal, hpos, if_pos rfl, hv]
    · rw [hplaced, hlock, insertResting, records_setLevels]
      simp only [records, nextSeq, OrdMap.get?_set, if_neg hv]
  refine ⟨?_, ?_, ?_, ?_, ?_, fun v => ?_, fun v => ?_⟩
  · rw [hcore.market, hsame.core]
    exact hrest.1
  · rw [hcore.markPrice, hsame.core]
    exact hrest.2.1
  · rw [hcore.lastTradePrice, hsame.core]
    exact hrest.2.2
  · rw [hacc.levels, hplaced]
    refine (insertResting_own _ (wholeOrder s e.toEnvelopeMeta o)).trans ?_
    rw [nextSeq_levels, lock_levels]
    rfl
  · rw [hacc.levels, hplaced]
    refine (insertResting_other _ (wholeOrder s e.toEnvelopeMeta o)).trans ?_
    rw [nextSeq_levels, lock_levels]
    rfl
  · exact (congrArg Prod.fst (hrecords v)).trans (apply_ite Prod.fst _ _ _)
  · exact (congrArg Prod.snd (hrecords v)).trans (apply_ite Prod.snd _ _ _)

/-! The cancellation -/

/-- What a lock takes, a release gives back. -/
theorem lock_release {b : Balance} {p : Position} (h : Amounts b p) {a : ℚ} (ha : 0 < a)
    (hg : Grid a) : (b.lock a).moved a = a ∧ (b.lock a).release a = b := by
  have hfree : (b.lock a).free = b.free - a := q_of_grid (h.free_grid.sub hg)
  have hlocked : (b.lock a).locked = b.locked + a := q_of_grid (h.locked_grid.add hg)
  have hmoved : (b.lock a).moved a = a := by
    rw [Balance.moved, hlocked, max_eq_right ha.le]
    exact min_eq_right (le_add_of_nonneg_left h.locked_nonneg)
  refine ⟨hmoved, ?_⟩
  unfold Balance.release
  rw [hmoved, hfree, hlocked, add_sub_cancel_right, sub_add_cancel, q_of_grid h.locked_grid,
    q_of_grid h.free_grid]
  rfl

/-- What a cancellation leaves of a placement: at most an empty record of the user's position. -/
structure Undone (s : EngineState) (u : String) (t : EngineState) : Prop where
  market : t.market = s.market
  bids : t.bids = s.bids
  asks : t.asks = s.asks
  balances : ∀ v, t.balances.get? v = s.balances.get? v
  positions : ∀ v p, s.positions.get? v = some p → t.positions.get? v = some p
  created : ∀ v, s.positions.get? v = none → t.positions.get? v = none ∨
    v = u ∧ t.positions.get? v = some (Position.flat u s.markPrice)
  markPrice : t.markPrice = s.markPrice
  lastTradePrice : t.lastTradePrice = s.lastTradePrice

theorem Undone.congr {s t t' : EngineState} {u : String} (h : Undone s u t) (hcore : SameCore t t') :
    Undone s u t' := by
  refine ⟨hcore.market.trans h.market, hcore.bids.trans h.bids, hcore.asks.trans h.asks, ?_, ?_, ?_,
    hcore.markPrice.trans h.markPrice, hcore.lastTradePrice.trans h.lastTradePrice⟩
  · rw [hcore.balances]
    exact h.balances
  · rw [hcore.positions]
    exact h.positions
  · rw [hcore.positions]
    exact h.created

theorem Undone.deltaDraft {s t : EngineState} {u : String} (h : Undone s u t) (side : Side)
    (price : ℚ) : deltaDraft t side price = deltaDraft s side price := by
  unfold Engine.deltaDraft levelsFor
  rw [h.market, h.bids, h.asks]

theorem Undone.bal {s t : EngineState} {u : String} (h : Undone s u t) (v : String) :
    t.bal v = s.bal v := by
  unfold EngineState.bal
  rw [h.balances]

/-- The cancellation of `o` by its owner. -/
def cancelOf (o : PlaceOrder) : CancelOrder := ⟨o.userId, o.orderId, o.side, o.price⟩

/-- The order given back: its side as it was, its margin released. -/
def givenBack (s t : EngineState) (o : PlaceOrder) (margin : ℚ) : EngineState :=
  (release (setLevels t o.side (levelsFor s o.side)) o.userId margin).1

/-- Both sides are those of `s` again, if the other side never changed. -/
theorem givenBack_eq {s t : EngineState} {o : PlaceOrder}
    (h : levelsFor t (maker_side o.side) = levelsFor s (maker_side o.side)) (margin : ℚ) :
    givenBack s t o margin = { t with
      bids := s.bids
      asks := s.asks
      balances := t.balances.set o.userId ((t.bal o.userId).release margin) } := by
  rw [givenBack, release_eq, bal_setLevels]
  unfold levelsFor at h ⊢
  cases hside : o.side <;> simp only [hside, maker_side] at h ⊢ <;> rw [← h] <;> rfl

/-- The cancellation finds the order, and takes it out of the place where it was put. -/
theorem dispatch_cancelOf {s t : EngineState} {e : EnvelopeMeta} {o : PlaceOrder}
    (h : Rests s o (wholeOrder s e o) t) (hok : SideOK o.side (levelsFor s o.side))
    (hnew : ∀ x ∈ ordersOf (levelsFor s o.side), x.orderId ≠ o.orderId) {e' : EngineInputEvent}
    (hp : e'.payload = .orderCancel (cancelOf o)) :
    dispatch t e' = (givenBack s t o (wholeOrder s e o).margin,
      [deltaDraft (givenBack s t o (wholeOrder s e o).margin) o.side o.price,
        .balanceUpdated (balancePayload o.userId
          ((givenBack s t o (wholeOrder s e o).margin).bal o.userId)),
        .orderCancelled
          { orderId := o.orderId
            userId := o.userId
            releasedMargin := (t.bal o.userId).moved (wholeOrder s e o).margin }]) := by
  have hins : Inserted (wholeOrder s e o) (levelsFor s o.side) _ := insertLevels_inserted hok.sorted
  obtain ⟨level, hlevel, hfind, hundo⟩ := hins.undo hok hnew
  have hlevels := h.own
  rw [← hlevels] at hlevel hundo
  have htarget : cancelTarget t (cancelOf o) = some (wholeOrder s e o) := by
    refine Option.bind_eq_some_iff.mpr ⟨level, hlevel, ?_⟩
    exact Option.bind_eq_some_iff.mpr ⟨_, hfind, if_neg (not_not.mpr rfl)⟩
  have hwithout : withoutOrder t (cancelOf o) level = setLevels t o.side (levelsFor s o.side) :=
    congrArg (setLevels t o.side) hundo
  have hout := dispatch_outcome t e'
  generalize dispatch t e' = r at hout
  cases hout with
  | missed c hp' ht =>
    obtain rfl := InputPayload.orderCancel.inj (hp'.symm.trans hp)
    rw [htarget] at ht
    cases ht
  | cancelled c hp' level' removed ht hlevel' hremoved =>
    obtain rfl := InputPayload.orderCancel.inj (hp'.symm.trans hp)
    obtain rfl := Option.some.inj (hlevel'.symm.trans hlevel)
    obtain rfl := Option.some.inj (hremoved.symm.trans hfind)
    have hreleased : (release (setLevels t o.side (levelsFor s o.side)) o.userId
        (wholeOrder s e o).margin).2 = (t.bal o.userId).moved (wholeOrder s e o).margin := by
      rw [release_eq, bal_setLevels]
    rw [hwithout, ← hreleased]
    rfl
  | opened p hp' | deposited p hp' | rejected o hp' | placed o hp' | stale p hp' | swept p hp' =>
    rw [hp] at hp'
    cases hp'

theorem Rests.bal {s t : EngineState} {o : PlaceOrder} {x : RestingOrder} (h : Rests s o x t) :
    t.bal o.userId = (s.bal o.userId).lock o.margin := by
  show (t.balances.get? o.userId).getD .zero = _
  rw [h.balances, if_pos rfl]
  rfl

theorem givenBack_undone {s t : EngineState} {o : PlaceOrder} {x : RestingOrder}
    (h : Rests s o x t) (hb : ((s.bal o.userId).lock o.margin).release o.margin = s.bal o.userId)
    (hu : s.balances.has o.userId = true) : Undone s o.userId (givenBack s t o o.margin) := by
  obtain ⟨b, hstored⟩ := Option.isSome_iff_exists.mp hu
  have hbal : s.bal o.userId = b := by
    unfold EngineState.bal
    rw [hstored]
    rfl
  rw [givenBack_eq h.other, h.bal, hb]
  refine ⟨h.market, rfl, rfl, fun v => ?_, fun v p hp => ?_, fun v hp => ?_, h.markPrice,
    h.lastTradePrice⟩
  · dsimp only
    rw [OrdMap.get?_set, h.balances]
    split_ifs with hv
    · rw [hv, hstored, hbal]
    · rfl
  · dsimp only
    rw [h.positions]
    split_ifs
    · rw [EngineState.pos, hp]
      rfl
    · exact hp
  · dsimp only
    rw [h.positions]
    split_ifs with hv
    · refine Or.inr ⟨hv, ?_⟩
      rw [EngineState.pos, hp, hv]
      rfl
    · exact Or.inl hp

/-- Cancelling an order that came to rest whole undoes its placement, apart from an empty
position record that it may have created. -/
theorem cancel_undoes_place {market : MarketConfig} {s : EngineState}
    (h : Reachable engineInputEventSchema market s) {e : EngineInputEvent}
    (he : engineInputEventSchema e) {o : PlaceOrder} (hacc : Accepted s e o)
    (ht : o.orderType = .LIMIT) (hg : Grid o.margin) (hq : o.quantity > 1e-9)
    (hcross : CrossesNothing s o) (hnew : ∀ x ∈ s.resting, x.orderId ≠ o.orderId)
    (id id' : StreamId) {e' : EngineInputEvent} (hp : e'.payload = .orderCancel (cancelOf o))
    (hfresh : ¬ alreadyApplied (process s e id).1 e' = true) :
    let r := process (process s e id).1 e' id'
    r.2.map EngineOutputEvent.payload =
        [deltaDraft s o.side o.price, .balanceUpdated (balancePayload o.userId (s.bal o.userId)),
          .orderCancelled { orderId := o.orderId, userId := o.userId, releasedMargin := o.margin }] ∧
      Undone s o.userId r.1 := by
  have ho := hacc.valid he
  have hrests := placed_rests hacc hcross ht hq id
  have hdispatch := dispatch_cancelOf hrests ((reachable_bookOK h).side o.side)
    (fun x hx => hnew x (BookOK.resting_of_side s hx)) hp
  have hback := lock_release (reachable_amounts h o.userId) ho.2.2.2.2.2 hg
  rw [wholeOrder_margin s e.toEnvelopeMeta ho hg, hrests.bal, hback.1] at hdispatch
  have hundone := givenBack_undone hrests hback.2 (has_of_placeRejection hacc.checks)
  refine ⟨?_, ?_⟩
  · rw [process_payloads, reduce_of_new hfresh, hdispatch, hundone.deltaDraft, hundone.bal]
  · have hcore := process_new hfresh id'
    rw [hdispatch] at hcore
    exact hundone.congr hcore

open Fixture in
/-- An order behind another one of its level, of a margin that its quantity does not divide. -/
theorem cancel_undoes_place_queued :
    let s := (run (createState MARKET) (numbered [user "m" 1000, user "t" 1000,
      place "m" "a1" .Ask .LIMIT 101 2 1 202, place "m" "a2" .Ask .LIMIT 100 2 1 200])).1
    let o : PlaceOrder := ⟨"t", "x1", .Ask, .LIMIT, 3, 101, 10, 100⟩
    let r := process (process s (evt "cmd_x1" (.orderPlace o)) ⟨9, 0⟩).1
      (evt "cmd_x2" (.orderCancel (cancelOf o))) ⟨10, 0⟩
    .orderCancelled ⟨"x1", "t", 100⟩ ∈ r.2.map EngineOutputEvent.payload ∧ Undone s "t" r.1 := by
  intro s o r
  have hreach : Reachable engineInputEventSchema MARKET s := reachable_run .init (by decide +kernel)
  have hacc : Accepted s (evt "cmd_x1" (.orderPlace o)) o := by decide +kernel
  have hp : (evt "cmd_x2" (.orderCancel (cancelOf o))).payload = .orderCancel (cancelOf o) := rfl
  obtain ⟨houts, hundone⟩ := cancel_undoes_place hreach (by decide +kernel) hacc rfl
    (by decide +kernel) (by norm_num) (by decide +kernel) (by decide +kernel) ⟨9, 0⟩ ⟨10, 0⟩ hp
    (by decide +kernel)
  refine ⟨?_, hundone⟩
  rw [houts]
  exact List.mem_cons_of_mem _ (List.mem_cons_of_mem _ List.mem_cons_self)

end Engine

end Perps
