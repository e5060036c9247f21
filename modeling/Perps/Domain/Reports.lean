import Perps.Domain.AccountDrafts

/-! The drafts of a handler: which trades and which order reports are among
them, in what order an accepted order drafts them, and what each kind of event
does and drafts. -/

namespace Perps

open Lib

namespace Engine

/-- The order reports among the drafts. -/
def reports (outs : List DraftOutput) : List OrderAccepted :=
  outs.filterMap fun
    | .orderAccepted r => some r
    | _ => none

theorem trades_append (xs ys : List DraftOutput) : trades (xs ++ ys) = trades xs ++ trades ys :=
  List.filterMap_append

theorem reports_append (xs ys : List DraftOutput) : reports (xs ++ ys) = reports xs ++ reports ys :=
  List.filterMap_append

/-- The drafts that say where an account stands. -/
def IsAccountDraft (d : DraftOutput) : Prop :=
  (∃ b, d = .balanceUpdated b) ∨ ∃ p, d = .positionUpdated p

theorem accountEvents_isAccountDraft (s : EngineState) (users : List String) :
    ∀ d ∈ users.flatMap (accountEvents s), IsAccountDraft d := by
  intro d hd
  obtain ⟨u, -, hd⟩ := List.mem_flatMap.mp hd
  rcases List.mem_cons.mp hd with rfl | hd
  · exact Or.inl ⟨_, rfl⟩
  · rw [List.mem_singleton.mp hd]
    exact Or.inr ⟨_, rfl⟩

theorem trades_of_account {ds : List DraftOutput} (h : ∀ d ∈ ds, IsAccountDraft d) :
    trades ds = [] := by
  refine List.filterMap_eq_nil_iff.mpr fun d hd => ?_
  rcases h d hd with ⟨b, rfl⟩ | ⟨p, rfl⟩ <;> rfl

theorem reports_of_account {ds : List DraftOutput} (h : ∀ d ∈ ds, IsAccountDraft d) :
    reports ds = [] := by
  refine List.filterMap_eq_nil_iff.mpr fun d hd => ?_
  rcases h d hd with ⟨b, rfl⟩ | ⟨p, rfl⟩ <;> rfl

theorem reports_of_match {ds : List DraftOutput} (h : ∀ d ∈ ds, IsMatchDraft d) :
    reports ds = [] := by
  refine List.filterMap_eq_nil_iff.mpr fun d hd => ?_
  rcases h d hd with ⟨t, rfl⟩ | ⟨x, rfl⟩ <;> rfl

/-- The payload of `makerReport`. -/
def makerReported (t : String × MakerTouched) : OrderAccepted where
  orderId := t.1
  userId := t.2.userId
  status := if q (t.2.restingQty - t.2.filled) > 1e-9 then .PARTIAL else .FILLED
  filledQuantity := t.2.filled
  remainingQuantity := max 0 (q (t.2.restingQty - t.2.filled))
  avgFillPrice := 0

/-- The payload of `takerReport`. -/
def takerReported (o : PlaceOrder) (m : Matching) (status : OrderStatus) : OrderAccepted where
  orderId := o.orderId
  userId := o.userId
  status := status
  filledQuantity := q (o.quantity - m.remaining)
  remainingQuantity := m.remaining
  avgFillPrice :=
    if q (o.quantity - m.remaining) > 0 then q (m.filledNotional / q (o.quantity - m.remaining))
    else 0

theorem trades_makerReports (ts : List (String × MakerTouched)) :
    trades (ts.map makerReport) = [] := by
  refine List.filterMap_eq_nil_iff.mpr fun d hd => ?_
  obtain ⟨t, _, rfl⟩ := List.mem_map.mp hd
  rfl

theorem reports_makerReports (ts : List (String × MakerTouched)) :
    reports (ts.map makerReport) = ts.map makerReported := by
  induction ts with
  | nil => rfl
  | cons t ts ih =>
    rw [List.map_cons, List.map_cons, ← ih]
    rfl

variable (s : EngineState) (e : EnvelopeMeta) (o : PlaceOrder)

theorem matched_drafts : ∀ d ∈ (matched s e o).outs, IsMatchDraft d :=
  matchLoop_drafts e o (by simp [matchStart])

/-- The remainder of an order drafts at most a delta. -/
theorem settleRemainder_drafts (m : Matching) :
    (settleRemainder e o m).2.1 = m.outs ∨
      ∃ x, (settleRemainder e o m).2.1 = m.outs ++ [.orderBookDelta x] := by
  have h := settleRemainder_cases e o m
  generalize settleRemainder e o m = r at h
  cases h with
  | rests => exact Or.inr ⟨_, rfl⟩
  | refunded => exact Or.inl rfl
  | filled => exact Or.inl rfl

theorem trades_settleRemainder (m : Matching) :
    trades (settleRemainder e o m).2.1 = trades m.outs := by
  rcases settleRemainder_drafts e o m with h | ⟨x, h⟩
  · rw [h]
  · rw [h, trades_append]
    exact List.append_nil _

theorem settleRemainder_isMatch :
    ∀ d ∈ (settleRemainder e o (matched s e o)).2.1, IsMatchDraft d := by
  have hm := matched_drafts s e o
  rcases settleRemainder_drafts e o (matched s e o) with h | ⟨x, h⟩
  · rw [h]
    exact hm
  · rw [h]
    intro d hd
    rcases List.mem_append.mp hd with hd | hd
    · exact hm d hd
    · exact Or.inr ⟨x, List.mem_singleton.mp hd⟩

theorem reports_settleRemainder : reports (settleRemainder e o (matched s e o)).2.1 = [] :=
  reports_of_match (settleRemainder_isMatch s e o)

/-- An accepted order drafts its trades and deltas, the reports of the makers, the account
events of the state it leaves, and last its own report. -/
theorem placeAccepted_eq : placeAccepted e o (lock s o.userId o.margin).1 =
    ((matched s e o).affected.foldl drafted (placedState s e o),
      (settleRemainder e o (matched s e o)).2.1 ++
        (matched s e o).makerTouched.entries.map makerReport ++
        (matched s e o).affected.flatMap (accountEvents (placedState s e o)) ++
        [takerReport o (matched s e o) (settleRemainder e o (matched s e o)).2.2]) := by
  unfold placeAccepted
  dsimp only
  rw [accountDrafts_eq]
  rfl

theorem placeAccepted_drafts : ∃ ds, (∀ d ∈ ds, IsAccountDraft d) ∧
    (placeAccepted e o (lock s o.userId o.margin).1).2 =
      (settleRemainder e o (matched s e o)).2.1 ++
        (matched s e o).makerTouched.entries.map makerReport ++ ds ++
          [takerReport o (matched s e o) (settleRemainder e o (matched s e o)).2.2] :=
  ⟨_, accountEvents_isAccountDraft _ _, congrArg Prod.snd (placeAccepted_eq s e o)⟩

/-- The drafts of an accepted order, one by one. -/
theorem mem_placeAccepted {d : DraftOutput}
    (hd : d ∈ (placeAccepted e o (lock s o.userId o.margin).1).2) :
    IsMatchDraft d ∨ (∃ r, d = .orderAccepted r) ∨
      ∃ u, d ∈ accountEvents (placedState s e o) u := by
  rw [placeAccepted_eq] at hd
  simp only [List.mem_append, List.mem_singleton, or_assoc] at hd
  rcases hd with hd | hd | hd | rfl
  · exact Or.inl (settleRemainder_isMatch s e o d hd)
  · obtain ⟨y, -, rfl⟩ := List.mem_map.mp hd
    exact Or.inr (Or.inl ⟨_, rfl⟩)
  · obtain ⟨u, -, hu⟩ := List.mem_flatMap.mp hd
    exact Or.inr (Or.inr ⟨u, hu⟩)
  · exact Or.inr (Or.inl ⟨_, rfl⟩)

theorem placeAccepted_trades :
    trades (placeAccepted e o (lock s o.userId o.margin).1).2 = trades (matched s e o).outs := by
  obtain ⟨ds, hall, h⟩ := placeAccepted_drafts s e o
  rw [h, trades_append, trades_append, trades_append, trades_settleRemainder, trades_makerReports,
    trades_of_account hall]
  simp [trades, takerReport]

theorem placeAccepted_reports :
    reports (placeAccepted e o (lock s o.userId o.margin).1).2 =
      (matched s e o).makerTouched.entries.map makerReported ++
        [takerReported o (matched s e o) (settleRemainder e o (matched s e o)).2.2] := by
  obtain ⟨ds, hall, h⟩ := placeAccepted_drafts s e o
  rw [h, reports_append, reports_append, reports_append, reports_settleRemainder,
    reports_makerReports, reports_of_account hall]
  simp [reports, takerReport, takerReported]

/-- The order passes every check of the engine. -/
structure Accepted (s : EngineState) (e : EngineInputEvent) (o : PlaceOrder) : Prop where
  payload : e.payload = .orderPlace o
  fresh : ¬ alreadyApplied s e = true
  checks : placeRejection s o = none
  funds : (lock s o.userId o.margin).2 = true

section Processed

variable {s : EngineState} {e : EngineInputEvent} {o : PlaceOrder}

theorem Accepted.valid (h : Accepted s e o) (he : engineInputEventSchema e) : o.Valid := by
  have hv := he.2
  rwa [h.payload] at hv

theorem Accepted.dispatch_eq (h : Accepted s e o) :
    dispatch s e = placeAccepted e.toEnvelopeMeta o (lock s o.userId o.margin).1 := by
  have hl := h.funds
  unfold dispatch
  rw [h.payload]
  simp only [onPlaceOrder, h.checks, hl, Bool.not_true, Bool.false_eq_true, if_false]

theorem Accepted.payloads (h : Accepted s e o) (id : StreamId) :
    (process s e id).2.map EngineOutputEvent.payload =
      (placeAccepted e.toEnvelopeMeta o (lock s o.userId o.margin).1).2 := by
  rw [process_payloads, reduce_of_new h.fresh, h.dispatch_eq]

/-- The state after an accepted order, up to the bookkeeping and to records
that stand for the defaults. -/
theorem Accepted.state (h : Accepted s e o) (id : StreamId) :
    ∃ t, SameAccounts (placedState s e.toEnvelopeMeta o) t ∧ SameCore t (process s e id).1 := by
  refine ⟨_, placeAccepted_same _ _ _, ?_⟩
  have := process_new h.fresh id
  rwa [h.dispatch_eq] at this

theorem Accepted.levels (h : Accepted s e o) (id : StreamId) (side : Side) :
    levelsFor (process s e id).1 side = levelsFor (placedState s e.toEnvelopeMeta o) side := by
  obtain ⟨t, ht, hcore⟩ := h.state id
  cases side
  · rw [levelsFor, hcore.bids, ht.core]
    rfl
  · rw [levelsFor, hcore.asks, ht.core]
    rfl

/-- An order is accepted exactly when the engine reports so. -/
theorem accepted_iff_reports (hp : e.payload = .orderPlace o) (id : StreamId) :
    Accepted s e o ↔ reports ((process s e id).2.map EngineOutputEvent.payload) ≠ [] := by
  constructor
  · intro h
    rw [h.payloads, placeAccepted_reports]
    simp
  · intro h
    have hnew : ¬ alreadyApplied s e = true := fun ha => h (by rw [process_applied ha]; rfl)
    rw [process_payloads, reduce_of_new hnew] at h
    unfold dispatch at h
    rw [hp] at h
    rcases onPlaceOrder_cases s e.toEnvelopeMeta o with ⟨reason, hr⟩ | ⟨hr, hl, -⟩
    · dsimp only at h
      rw [hr] at h
      exact absurd rfl h
    · exact ⟨hp, hnew, hr, hl⟩

end Processed

instance (s : EngineState) (e : EngineInputEvent) (o : PlaceOrder) : Decidable (Accepted s e o) :=
  decidable_of_iff (e.payload = .orderPlace o ∧ ¬ alreadyApplied s e = true ∧
    placeRejection s o = none ∧ (lock s o.userId o.margin).2 = true)
    ⟨fun h => ⟨h.1, h.2.1, h.2.2.1, h.2.2.2⟩, fun h => ⟨h.payload, h.fresh, h.checks, h.funds⟩⟩

/-- The order that the event places, if it is accepted. -/
def acceptedOrder (s : EngineState) (e : EngineInputEvent) : Option PlaceOrder :=
  match e.payload with
  | .orderPlace o => if Accepted s e o then some o else none
  | _ => none

theorem acceptedOrder_eq_some {s : EngineState} {e : EngineInputEvent} {o : PlaceOrder} :
    acceptedOrder s e = some o ↔ Accepted s e o := by
  unfold acceptedOrder
  constructor
  · intro h
    split at h
    · split_ifs at h with hacc
      obtain rfl := Option.some.inj h
      exact hacc
    · cases h
  · intro h
    rw [h.payload]
    exact if_pos h

theorem acceptedOrder_eq_none {s : EngineState} {e : EngineInputEvent} :
    acceptedOrder s e = none ↔ ∀ o, ¬ Accepted s e o := by
  simp only [Option.eq_none_iff_forall_not_mem, Option.mem_def, acceptedOrder_eq_some]

/-! What each kind of event does and drafts -/

/-- The positions that a new index price liquidates, in the order of the map. -/
def liquidationsOf (s : EngineState) (p : IndexPriceUpdated) : List PositionLiquidated :=
  (liquidationSweep (markToMarket { s with lastObserverSeq := p.observerSeq } p.price) p.price).2

/-- What an event that is not a repetition does to the state and drafts. -/
inductive Outcome (s : EngineState) (e : EngineInputEvent) : EngineState × List DraftOutput → Prop
  | opened (p : UserCreated) (hp : e.payload = .userCreated p) :
    Outcome s e ((onUserCreated s p).1,
      [.balanceUpdated (balancePayload p.userId ((onUserCreated s p).1.bal p.userId))])
  | deposited (p : BalanceDeposited) (hp : e.payload = .balanceDeposited p) :
    Outcome s e ((onBalanceDeposited s p).1,
      [.balanceUpdated (balancePayload p.userId ((onBalanceDeposited s p).1.bal p.userId))])
  | rejected (o : PlaceOrder) (hp : e.payload = .orderPlace o) (reason : String) :
    Outcome s e (s, rejectPlace e.toEnvelopeMeta o reason)
  | placed (o : PlaceOrder) (hp : e.payload = .orderPlace o) (hr : placeRejection s o = none)
    (hl : (lock s o.userId o.margin).2 = true) :
    Outcome s e (placeAccepted e.toEnvelopeMeta o (lock s o.userId o.margin).1)
  | missed (c : CancelOrder) (hp : e.payload = .orderCancel c) (ht : cancelTarget s c = none) :
    Outcome s e (s,
      [.orderRejected { orderId := c.orderId, userId := c.userId, reason := "order not found" },
        .commandRejected
          { commandId := e.commandId.getD c.orderId, reason := "order not found" }])
  | cancelled (c : CancelOrder) (hp : e.payload = .orderCancel c) (level : PriceLevel)
    (removed : RestingOrder) (ht : cancelTarget s c = some removed)
    (hlevel : (levelsFor s c.side).find? (fun l => l.price = c.price) = some level)
    (hremoved : level.orders.find? (fun x => x.orderId = c.orderId) = some removed) :
    Outcome s e ((release (withoutOrder s c level) c.userId removed.margin).1,
      [deltaDraft (release (withoutOrder s c level) c.userId removed.margin).1 c.side c.price,
        .balanceUpdated (balancePayload c.userId
          ((release (withoutOrder s c level) c.userId removed.margin).1.bal c.userId)),
        .orderCancelled
          { orderId := c.orderId
            userId := c.userId
            releasedMargin := (release (withoutOrder s c level) c.userId removed.margin).2 }])
  | stale (p : IndexPriceUpdated) (hp : e.payload = .indexPriceUpdated p)
    (hseq : (p.observerSeq : ℤ) ≤ s.lastObserverSeq) : Outcome s e (s, [])
  | swept (p : IndexPriceUpdated) (hp : e.payload = .indexPriceUpdated p)
    (hseq : ¬ (p.observerSeq : ℤ) ≤ s.lastObserverSeq) :
    Outcome s e (((liquidationsOf s p).map PositionLiquidated.userId).foldl drafted (markedState s p),
      (liquidationsOf s p).flatMap fun l =>
        .positionLiquidated l :: accountEvents (markedState s p) l.userId)

theorem onUserCreated_snd (s : EngineState) (p : UserCreated) : (onUserCreated s p).2 =
    [.balanceUpdated (balancePayload p.userId ((onUserCreated s p).1.bal p.userId))] := by
  unfold onUserCreated
  dsimp only
  rw [balanceDraft_snd, (balanceDraft_same _ _).bal]

theorem onBalanceDeposited_snd (s : EngineState) (p : BalanceDeposited) :
    (onBalanceDeposited s p).2 =
      [.balanceUpdated (balancePayload p.userId ((onBalanceDeposited s p).1.bal p.userId))] := by
  unfold onBalanceDeposited
  dsimp only
  rw [balanceDraft_snd, (balanceDraft_same _ _).bal]

theorem dispatch_outcome (s : EngineState) (e : EngineInputEvent) : Outcome s e (dispatch s e) := by
  unfold dispatch
  cases hp : e.payload with
  | userCreated p =>
    have h := Outcome.opened (s := s) p hp
    rwa [← onUserCreated_snd] at h
  | balanceDeposited p =>
    have h := Outcome.deposited (s := s) p hp
    rwa [← onBalanceDeposited_snd] at h
  | orderPlace o =>
    dsimp only
    rcases onPlaceOrder_cases s e.toEnvelopeMeta o with ⟨reason, h⟩ | ⟨hr, hl, h⟩
    · rw [h]
      exact .rejected o hp reason
    · rw [h]
      exact .placed o hp hr hl
  | orderCancel c =>
    dsimp only
    unfold onCancelOrder
    cases ht : cancelTarget s c with
    | none => exact .missed c hp ht
    | some removed =>
      obtain ⟨level, hlevel, hremoved, -⟩ := cancelTarget_eq_some ht
      dsimp only
      rw [cancelResting_eq hlevel hremoved]
      dsimp only
      rw [balanceDraft_released]
      exact .cancelled c hp level removed ht hlevel hremoved
  | indexPriceUpdated p =>
    dsimp only
    unfold onIndexPrice
    split_ifs with hseq
    · exact .stale p hp hseq
    · dsimp only
      rw [liquidationDrafts_eq]
      exact .swept p hp hseq

/-! Events that accept no order -/

/-- Neither a trade nor an order report. -/
def IsQuiet : DraftOutput → Prop
  | .tradeExecuted _ => False
  | .orderAccepted _ => False
  | _ => True

theorem trades_of_quiet {ds : List DraftOutput} (h : ∀ d ∈ ds, IsQuiet d) : trades ds = [] := by
  refine List.filterMap_eq_nil_iff.mpr fun d hd => ?_
  have hq := h d hd
  cases d <;> first | rfl | exact absurd hq id

theorem reports_of_quiet {ds : List DraftOutput} (h : ∀ d ∈ ds, IsQuiet d) : reports ds = [] := by
  refine List.filterMap_eq_nil_iff.mpr fun d hd => ?_
  have hq := h d hd
  cases d <;> first | rfl | exact absurd hq id

theorem dispatch_quiet {s : EngineState} {e : EngineInputEvent}
    (hnew : ¬ alreadyApplied s e = true) (hnot : ∀ o, ¬ Accepted s e o) :
    ∀ d ∈ (dispatch s e).2, IsQuiet d := by
  have hout := dispatch_outcome s e
  generalize dispatch s e = r at hout
  intro d hd
  cases hout with
  | opened | deposited =>
    rw [List.mem_singleton.mp hd]
    trivial
  | rejected | missed =>
    rcases List.mem_pair.mp hd with rfl | rfl <;> trivial
  | placed o hp hr hl => exact absurd ⟨hp, hnew, hr, hl⟩ (hnot o)
  | cancelled =>
    simp only [List.mem_cons, List.not_mem_nil, or_false] at hd
    rcases hd with rfl | rfl | rfl <;> trivial
  | stale => cases hd
  | swept =>
    obtain ⟨l, -, hl⟩ := List.mem_flatMap.mp hd
    rcases List.mem_cons.mp hl with rfl | hl
    · trivial
    · rcases List.mem_pair.mp hl with rfl | rfl <;> trivial

/-- An event that accepts no order emits neither trades nor order reports. -/
theorem process_quiet {s : EngineState} {e : EngineInputEvent} (hnot : ∀ o, ¬ Accepted s e o)
    (id : StreamId) : ∀ d ∈ (process s e id).2.map EngineOutputEvent.payload, IsQuiet d := by
  by_cases ha : alreadyApplied s e = true
  · rw [process_applied ha]
    simp
  · rw [process_payloads, reduce_of_new ha]
    exact dispatch_quiet ha hnot

end Engine

end Perps
