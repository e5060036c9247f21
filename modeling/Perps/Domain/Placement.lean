import Perps.Domain.Effects
import Perps.Domain.BookShape

/-! What an accepted order finds and leaves: its loops run to their end, and the
three ways in which its remainder is settled. -/

namespace Perps

open Lib

namespace Engine

/-- The loops of an accepted order, run to their end. -/
def matched (s : EngineState) (e : EnvelopeMeta) (o : PlaceOrder) : Matching :=
  matchLoop e o (matchStart (lock s o.userId o.margin).1 o)

/-- The makers the order trades with, and the quantities, in order. -/
def fillsOf (s : EngineState) (o : PlaceOrder) : List (RestingOrder × ℚ) :=
  hits (crossing o (levelsFor s (maker_side o.side))) o.quantity

/-- The makers that an order trades with, from the book before it. -/
def reached (s : EngineState) (o : PlaceOrder) : List RestingOrder := (fillsOf s o).map Prod.fst

section Settled

variable (e : EnvelopeMeta) (o : PlaceOrder)

theorem settleFill_levels (m : Matching) (maker : RestingOrder) (side : Side) :
    levelsFor (settleFill e o m maker).state side = levelsFor m.state side := by
  simp only [settleFill, nextSeq, applyFill_eq]
  cases side <;> rfl

theorem settleFill_seq (m : Matching) (maker : RestingOrder) :
    (settleFill e o m maker).state.seq = m.state.seq + 1 := by
  simp only [settleFill, nextSeq, applyFill_eq]
  rfl

theorem settleFill_market (m : Matching) (maker : RestingOrder) :
    (settleFill e o m maker).state.market = m.state.market := by
  simp only [settleFill, nextSeq, applyFill_eq]
  rfl

theorem settleAll_levels (m : Matching) (os : List RestingOrder) (side : Side) :
    levelsFor (settleAll e o m os).state side = levelsFor m.state side := by
  induction os generalizing m with
  | nil => rfl
  | cons x xs ih => exact (ih _).trans (settleFill_levels e o m x side)

theorem settleAll_seq (m : Matching) (os : List RestingOrder) :
    (settleAll e o m os).state.seq = m.state.seq + os.length := by
  induction os generalizing m with
  | nil => rfl
  | cons x xs ih =>
    refine (ih (settleFill e o m x)).trans ?_
    rw [settleFill_seq, List.length_cons]
    omega

end Settled

theorem setLevels_seq (s : EngineState) (side : Side) (ls : List PriceLevel) :
    (setLevels s side ls).seq = s.seq := by cases side <;> rfl

section Lock

variable (s : EngineState) (u : String) (a : ℚ)

@[simp] theorem lock_levels (side : Side) : levelsFor (lock s u a).1 side = levelsFor s side := by
  unfold lock ensureBalance
  cases s.balances.get? u <;> dsimp only <;> split_ifs <;> cases side <;> rfl

@[simp] theorem lock_seq : (lock s u a).1.seq = s.seq := by
  unfold lock ensureBalance
  cases s.balances.get? u <;> dsimp only <;> split_ifs <;> rfl

@[simp] theorem lock_market : (lock s u a).1.market = s.market := by
  unfold lock ensureBalance
  cases s.balances.get? u <;> dsimp only <;> split_ifs <;> rfl

end Lock

section Insert

variable (s : EngineState) (order : RestingOrder)

theorem insertResting_own : levelsFor (insertResting s order) order.side =
    insertLevels (levelsFor s order.side) order := levelsFor_setLevels _ _ _

theorem insertResting_other : levelsFor (insertResting s order) (maker_side order.side) =
    levelsFor s (maker_side order.side) := by
  unfold insertResting
  cases order.side <;> rfl

theorem insertResting_seq : (insertResting s order).seq = s.seq := by
  unfold insertResting
  cases order.side <;> rfl

theorem nextSeq_levels (side : Side) : levelsFor (nextSeq s).1 side = levelsFor s side := by
  cases side <;> rfl

end Insert

variable (s : EngineState) (e : EnvelopeMeta) (o : PlaceOrder)

/-- The fills of the order settled one after the other, the book untouched. -/
def filledOrder : Matching :=
  settleAll e o (matchStart (lock s o.userId o.margin).1 o) ((fillsOf s o).map Prod.fst)

theorem matched_spec : UpToDeltas (matched s e o) ((filledOrder s e o).withLevels o
    (sweepLevels o (levelsFor s (maker_side o.side)) o.quantity)) := by
  have h := matchLoop_spec e o (matchStart (lock s o.userId o.margin).1 o)
  simp only [matchStart, lock_levels] at h
  exact h

theorem matched_maker : levelsFor (matched s e o).state (maker_side o.side) =
    sweepLevels o (levelsFor s (maker_side o.side)) o.quantity := by
  rw [(matched_spec s e o).state]
  exact levelsFor_withLevels o _ _

theorem matched_own : levelsFor (matched s e o).state o.side = levelsFor s o.side := by
  rw [(matched_spec s e o).state]
  refine (levelsFor_maker_setLevels _ _ _).trans ?_
  rw [filledOrder, settleAll_levels]
  exact lock_levels s _ _ _

theorem matched_remaining : (matched s e o).remaining =
    leftover (crossing o (levelsFor s (maker_side o.side))) o.quantity := by
  rw [(matched_spec s e o).remaining]
  exact settleAll_remaining e o _ _

theorem matched_seq : (matched s e o).state.seq = s.seq + (fillsOf s o).length := by
  rw [(matched_spec s e o).state]
  refine (setLevels_seq _ _ _).trans ?_
  rw [filledOrder, settleAll_seq, List.length_map]
  exact congrArg (· + _) (lock_seq s _ _)

theorem matched_exit : ¬ OuterCond o (matched s e o) := matchLoop_exit e o _

/-- What is left of a limit order rests, of a market order is refunded. -/
inductive Remainder (m : Matching) : EngineState × List DraftOutput × OrderStatus → Prop
  | rests (ht : o.orderType = .LIMIT) (hr : m.remaining > 1e-9) :
    Remainder m
      (insertResting (nextSeq m.state).1 (restingOrder e o m.remaining (m.state.seq + 1)),
        m.outs ++ [deltaDraft (insertResting (nextSeq m.state).1
          (restingOrder e o m.remaining (m.state.seq + 1))) o.side o.price],
        if q (o.quantity - m.remaining) > 0 then .PARTIAL else .OPEN)
  | refunded (ht : o.orderType = .MARKET) (hr : m.remaining > 1e-9) :
    Remainder m
      ((release m.state o.userId (q (m.remaining * marginPerUnit o))).1, m.outs,
        if q (o.quantity - m.remaining) > 0 then .PARTIAL else .CANCELLED)
  | filled (hr : ¬ m.remaining > 1e-9) : Remainder m (m.state, m.outs, .FILLED)

theorem settleRemainder_cases (m : Matching) : Remainder e o m (settleRemainder e o m) := by
  by_cases hr : m.remaining > 1e-9
  · cases ht : o.orderType with
    | LIMIT =>
      have := Remainder.rests (e := e) ht hr
      simpa [settleRemainder, ht, hr, nextSeq] using this
    | MARKET =>
      have := Remainder.refunded (e := e) ht hr
      simpa [settleRemainder, ht, hr] using this
  · have : settleRemainder e o m = (m.state, m.outs, .FILLED) := by
      simp only [settleRemainder, hr, and_false, if_false]
    rw [this]
    exact .filled hr

end Engine

end Perps
