import Perps.Domain.Steps

/-! What an event can do to the state, as one list of cases. Every invariant of
the engine is proved by going through `Effect`. -/

namespace Perps

open Lib

namespace Engine

/-- The state of an accepted order just before its account events are drafted. -/
def placedState (s : EngineState) (e : EnvelopeMeta) (o : PlaceOrder) : EngineState :=
  (settleRemainder e o (matchLoop e o (matchStart (lock s o.userId o.margin).1 o))).1

/-- The state without the cancelled order, its margin still locked. -/
def withoutOrder (s : EngineState) (c : CancelOrder) (level : PriceLevel) : EngineState :=
  setLevels s c.side (removeEmptyLevel (setOrders c.price
    (level.orders.eraseP fun x => x.orderId = c.orderId) (levelsFor s c.side)) c.price)

/-- The state after a new index price has been applied. -/
def markedState (s : EngineState) (p : IndexPriceUpdated) : EngineState :=
  (liquidationSweep (markToMarket { s with lastObserverSeq := p.observerSeq } p.price) p.price).1

inductive Effect (s : EngineState) (e : EngineInputEvent) : EngineState → Prop
  | unchanged : Effect s e s
  | opened {t : EngineState} (h : SameAccounts s t) : Effect s e t
  | credited {t : EngineState} (u : String) (amount : ℚ) (hpos : 0 < amount)
    (hp : e.payload = .userCreated ⟨u, amount⟩ ∨ e.payload = .balanceDeposited ⟨u, amount⟩)
    (h : SameAccounts (credit s u amount) t) : Effect s e t
  | placed {t : EngineState} (o : PlaceOrder) (hp : e.payload = .orderPlace o)
    (hr : placeRejection s o = none) (hl : (lock s o.userId o.margin).2 = true)
    (h : SameAccounts (placedState s e.toEnvelopeMeta o) t) : Effect s e t
  | cancelled {t : EngineState} (c : CancelOrder) (level : PriceLevel) (removed : RestingOrder)
    (hp : e.payload = .orderCancel c)
    (hlevel : (levelsFor s c.side).find? (fun l => l.price = c.price) = some level)
    (hremoved : level.orders.find? (fun x => x.orderId = c.orderId) = some removed)
    (huser : removed.userId = c.userId)
    (h : SameAccounts (release (withoutOrder s c level) c.userId removed.margin).1 t) :
    Effect s e t
  | marked {t : EngineState} (p : IndexPriceUpdated) (hp : e.payload = .indexPriceUpdated p)
    (hseq : s.lastObserverSeq < p.observerSeq) (h : SameAccounts (markedState s p) t) :
    Effect s e t

theorem ensureBalance_of_has {s : EngineState} {u : String} (h : s.balances.has u = true) :
    (ensureBalance s u).1 = s := by
  unfold OrdMap.has at h
  unfold ensureBalance
  cases hb : s.balances.get? u with
  | some b => rfl
  | none => simp [hb] at h

theorem lock_fst_of_false {s : EngineState} {u : String} {a : ℚ} (hu : s.balances.has u = true)
    (h : (lock s u a).2 = false) : (lock s u a).1 = s := by
  rw [lock_snd] at h
  simp only [lock, ensureBalance_snd]
  rw [if_pos (by simpa using h)]
  exact ensureBalance_of_has hu

theorem has_of_placeRejection {s : EngineState} {o : PlaceOrder} (h : placeRejection s o = none) :
    s.balances.has o.userId = true := by
  unfold placeRejection at h
  by_contra hb
  rw [Bool.not_eq_true] at hb
  simp [hb] at h

/-- An order is rejected and leaves the state alone, or is accepted. -/
theorem onPlaceOrder_cases (s : EngineState) (e : EnvelopeMeta) (o : PlaceOrder) :
    (∃ reason, onPlaceOrder s e o = (s, rejectPlace e o reason)) ∨
      placeRejection s o = none ∧ (lock s o.userId o.margin).2 = true ∧
        onPlaceOrder s e o = placeAccepted e o (lock s o.userId o.margin).1 := by
  unfold onPlaceOrder
  cases hr : placeRejection s o with
  | some reason => exact Or.inl ⟨reason, rfl⟩
  | none =>
    cases hl : (lock s o.userId o.margin).2 with
    | true => exact Or.inr ⟨rfl, rfl, by simp [hl]⟩
    | false =>
      refine Or.inl ⟨"insufficient free balance", ?_⟩
      simp [hl, lock_fst_of_false (has_of_placeRejection hr) hl]

theorem placeAccepted_same (e : EnvelopeMeta) (o : PlaceOrder) (s : EngineState) :
    SameAccounts (settleRemainder e o (matchLoop e o (matchStart s o))).1 (placeAccepted e o s).1 :=
  accountDrafts_same (matchLoop e o (matchStart s o)).affected
    ((settleRemainder e o (matchLoop e o (matchStart s o))).1, _)

theorem cancelTarget_eq_some {s : EngineState} {c : CancelOrder} {target : RestingOrder}
    (h : cancelTarget s c = some target) :
    ∃ level, (levelsFor s c.side).find? (fun l => l.price = c.price) = some level ∧
      level.orders.find? (fun x => x.orderId = c.orderId) = some target ∧
        target.userId = c.userId := by
  unfold cancelTarget at h
  obtain ⟨level, hlevel, h⟩ := Option.bind_eq_some_iff.mp h
  obtain ⟨t, ht, h⟩ := Option.bind_eq_some_iff.mp h
  split_ifs at h with hu
  obtain rfl := Option.some.inj h
  exact ⟨level, hlevel, ht, not_not.mp hu⟩

theorem cancelResting_eq {s : EngineState} {c : CancelOrder} {level : PriceLevel}
    {removed : RestingOrder}
    (hlevel : (levelsFor s c.side).find? (fun l => l.price = c.price) = some level)
    (hremoved : level.orders.find? (fun x => x.orderId = c.orderId) = some removed) :
    cancelResting s c.side c.price c.orderId = (withoutOrder s c level, some removed) := by
  unfold cancelResting
  dsimp only
  rw [hlevel]
  dsimp only
  rw [hremoved]
  rfl

theorem credit_ensureBalance (s : EngineState) (u : String) (amount : ℚ) :
    credit (ensureBalance s u).1 u amount = credit s u amount := by
  rw [credit_eq, credit_eq, ensureBalance_set, (ensureBalance_same s u).bal]

theorem onUserCreated_credits (s : EngineState) (u : String) {amount : ℚ} (ha : 0 < amount) :
    SameAccounts (credit s u amount) (onUserCreated s ⟨u, amount⟩).1 := by
  unfold onUserCreated
  dsimp only
  rw [if_pos ha, credit_ensureBalance]
  exact balanceDraft_same _ _

theorem onBalanceDeposited_credits (s : EngineState) (u : String) (amount : ℚ) :
    SameAccounts (credit s u amount) (onBalanceDeposited s ⟨u, amount⟩).1 := by
  unfold onBalanceDeposited
  dsimp only
  rw [credit_ensureBalance]
  exact balanceDraft_same _ _

theorem onUserCreated_effect (s : EngineState) (e : EngineInputEvent) (p : UserCreated)
    (hp : e.payload = .userCreated p) : Effect s e (onUserCreated s p).1 := by
  obtain ⟨u, amount⟩ := p
  by_cases ha : 0 < amount
  · exact .credited u amount ha (Or.inl hp) (onUserCreated_credits s u ha)
  · unfold onUserCreated
    dsimp only
    rw [if_neg ha]
    exact .opened ((ensureBalance_same s u).trans (balanceDraft_same _ _))

theorem onBalanceDeposited_effect (s : EngineState) (e : EngineInputEvent) (p : BalanceDeposited)
    (hp : e.payload = .balanceDeposited p) (hv : p.Valid) :
    Effect s e (onBalanceDeposited s p).1 := by
  obtain ⟨u, amount⟩ := p
  exact .credited u amount hv.2 (Or.inr hp) (onBalanceDeposited_credits s u amount)

theorem onPlaceOrder_effect (s : EngineState) (e : EngineInputEvent) (o : PlaceOrder)
    (hp : e.payload = .orderPlace o) : Effect s e (onPlaceOrder s e.toEnvelopeMeta o).1 := by
  rcases onPlaceOrder_cases s e.toEnvelopeMeta o with ⟨reason, h⟩ | ⟨hr, hl, h⟩
  · rw [h]
    exact .unchanged
  · rw [h]
    exact .placed o hp hr hl (placeAccepted_same _ _ _)

theorem onCancelOrder_effect (s : EngineState) (e : EngineInputEvent) (c : CancelOrder)
    (hp : e.payload = .orderCancel c) : Effect s e (onCancelOrder s e.toEnvelopeMeta c).1 := by
  unfold onCancelOrder
  cases ht : cancelTarget s c with
  | none => exact .unchanged
  | some target =>
    obtain ⟨level, hlevel, htarget, huser⟩ := cancelTarget_eq_some ht
    dsimp only
    rw [cancelResting_eq hlevel htarget]
    exact .cancelled c level target hp hlevel htarget huser (balanceDraft_same _ _)

theorem onIndexPrice_effect (s : EngineState) (e : EngineInputEvent) (p : IndexPriceUpdated)
    (hp : e.payload = .indexPriceUpdated p) : Effect s e (onIndexPrice s p).1 := by
  unfold onIndexPrice
  split_ifs with h
  · exact .unchanged
  · exact .marked p hp (not_le.mp h) (liquidationDrafts_same _ (markedState s p, []))

theorem dispatch_effect (s : EngineState) (e : EngineInputEvent)
    (hv : engineInputEventSchema e) : Effect s e (dispatch s e).1 := by
  have hp := hv.2
  unfold dispatch
  cases h : e.payload with
  | userCreated p => exact onUserCreated_effect s e p h
  | balanceDeposited p =>
    rw [h] at hp
    exact onBalanceDeposited_effect s e p h hp
  | orderPlace o => exact onPlaceOrder_effect s e o h
  | orderCancel c => exact onCancelOrder_effect s e c h
  | indexPriceUpdated p => exact onIndexPrice_effect s e p h

/-- Of an event that is not known to be valid: only the amount of a deposit matters. -/
theorem dispatch_effect_or_credit (s : EngineState) (e : EngineInputEvent) :
    Effect s e (dispatch s e).1 ∨
      ∃ u amount, SameAccounts (credit s u amount) (dispatch s e).1 := by
  unfold dispatch
  cases h : e.payload with
  | userCreated p => exact Or.inl (onUserCreated_effect s e p h)
  | balanceDeposited p => exact Or.inr ⟨p.userId, p.amount, onBalanceDeposited_credits s _ _⟩
  | orderPlace o => exact Or.inl (onPlaceOrder_effect s e o h)
  | orderCancel c => exact Or.inl (onCancelOrder_effect s e c h)
  | indexPriceUpdated p => exact Or.inl (onIndexPrice_effect s e p h)

end Engine

end Perps
