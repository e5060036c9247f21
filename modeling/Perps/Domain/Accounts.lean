import Perps.Domain.Positions

/-! One user's account: the balance and the position record. `fillLeg` is
`applyFill` on the two records, `applyFill_eq` says so, and `FillCase` lists
the five things a fill can do to them. -/

namespace Perps

open Lib

def EngineState.pos (state : EngineState) (userId : String) : Position :=
  (state.positions.get? userId).getD (Position.flat userId state.markPrice)

/-! What an opposing fill of quantity `f` at `price` does to a position -/

/-- The quantity that is closed. -/
def Position.closedQty (p : Position) (f : ℚ) : ℚ := min |p.size| f

def Position.pnl (p : Position) (price f : ℚ) : ℚ :=
  q ((price - p.entryPrice) * p.closedQty f * (if p.size > 0 then 1 else -1))

def Position.marginFreed (p : Position) (f : ℚ) : ℚ := q (p.closedQty f / |p.size| * p.margin)

/-- The fill's own margin that goes with the closed quantity. -/
def Position.closedPortion (p : Position) (f fm : ℚ) : ℚ := q (p.closedQty f / f * fm)

/-- The balance of an opposing fill, before a close gives back what is left. -/
def settled (b : Balance) (p : Position) (price f fm : ℚ) : Balance :=
  ((b.release (p.marginFreed f)).add (p.pnl price f)).release (p.closedPortion f fm)

/-- The two records after a fill. There is no new balance where the fill adds
to the position. -/
def fillLeg (mmr : ℚ) (b : Balance) (p : Position) (side : Side) (price f fm lev : ℚ) :
    Option Balance × Position :=
  if p.size = 0 then
    (none, refreshLiq mmr
      { p with size := signedQty side f, entryPrice := price, margin := q fm, leverage := lev })
  else if sign p.size = sign (signedQty side f) then
    (none, refreshLiq mmr
      { p with
        entryPrice := q ((|p.size| * p.entryPrice + f * price) / (|p.size| + f))
        size := q (p.size + signedQty side f)
        margin := q (p.margin + fm)
        leverage := lev })
  else if |q (p.size + signedQty side f)| < 1e-9 then
    (some ((settled b p price f fm).release (q (p.margin - p.marginFreed f))),
      { p with
        realizedPnl := q (p.realizedPnl + p.pnl price f)
        size := 0
        entryPrice := 0
        margin := 0
        liqPrice := 0 })
  else if f > |p.size| then
    (some (settled b p price f fm), refreshLiq mmr
      { p with
        realizedPnl := q (p.realizedPnl + p.pnl price f)
        size := q (p.size + signedQty side f)
        entryPrice := price
        margin := q (fm - p.closedPortion f fm)
        leverage := lev })
  else
    (some (settled b p price f fm), refreshLiq mmr
      { p with
        realizedPnl := q (p.realizedPnl + p.pnl price f)
        size := q (p.size + signedQty side f)
        margin := q (p.margin - p.marginFreed f) })

/-- Store the records of a fill. -/
def EngineState.withAccount (state : EngineState) (userId : String)
    (r : Option Balance × Position) : EngineState :=
  { state with
    balances :=
      match r.1 with
      | some b => state.balances.set userId b
      | none => state.balances
    positions := state.positions.set userId r.2 }

theorem pos_set (state : EngineState) (userId v : String) (p : Position) :
    ({ state with positions := state.positions.set userId p } : EngineState).pos v =
      if v = userId then p else state.pos v := by
  simp only [EngineState.pos, OrdMap.get?_set]
  split_ifs <;> rfl

theorem ensurePosition_snd (state : EngineState) (userId : String) :
    (ensurePosition state userId).2 = state.pos userId := by
  unfold ensurePosition EngineState.pos
  cases state.positions.get? userId <;> rfl

/-- Creating a flat record first makes no difference to what is stored. -/
theorem withAccount_ensurePosition (state : EngineState) (userId : String)
    (r : Option Balance × Position) :
    (ensurePosition state userId).1.withAccount userId r = state.withAccount userId r := by
  unfold ensurePosition EngineState.withAccount
  cases state.positions.get? userId <;> simp

theorem bal_ensurePosition (state : EngineState) (userId v : String) :
    (ensurePosition state userId).1.bal v = state.bal v := by
  unfold ensurePosition
  cases state.positions.get? userId <;> rfl

/-- `applyFill` reads one account and stores it again. -/
theorem applyFill_eq (state : EngineState) (userId : String) (side : Side)
    (price fillQty fillMargin leverage : ℚ) :
    applyFill state userId side price fillQty fillMargin leverage =
      state.withAccount userId
        (fillLeg state.market.maintenanceMarginRate (state.bal userId) (state.pos userId) side
          price fillQty fillMargin leverage) := by
  rw [← withAccount_ensurePosition, ← bal_ensurePosition]
  simp only [applyFill, fillLeg, settled, Position.closedPortion, Position.marginFreed,
    Position.pnl, Position.closedQty, ensurePosition_snd, release_eq, applyPnl_eq, putPosition,
    EngineState.bal, OrdMap.get?_set_self, Option.getD_some, OrdMap.set_set]
  split_ifs <;> rfl

theorem bal_withAccount (s : EngineState) (u v : String) (r : Option Balance × Position) :
    (s.withAccount u r).bal v = if v = u then r.1.getD (s.bal u) else s.bal v := by
  obtain ⟨b, p⟩ := r
  unfold EngineState.withAccount EngineState.bal
  cases b with
  | none =>
    by_cases hv : v = u
    · rw [if_pos hv, hv]
      rfl
    · rw [if_neg hv]
  | some b =>
    simp only [OrdMap.get?_set]
    by_cases hv : v = u <;> simp [hv]

theorem pos_withAccount (s : EngineState) (u v : String) (r : Option Balance × Position) :
    (s.withAccount u r).pos v = if v = u then r.2 else s.pos v := by
  unfold EngineState.withAccount
  simp only [EngineState.pos, OrdMap.get?_set]
  split_ifs <;> rfl

/-- The five things a fill does to the records, by the position it meets. -/
inductive FillCase (mmr : ℚ) (b : Balance) (p : Position) (side : Side) (price f fm lev : ℚ) :
    Option Balance × Position → Prop
  | opened (h : p.size = 0) :
    FillCase mmr b p side price f fm lev (none, refreshLiq mmr
      { p with size := signedQty side f, entryPrice := price, margin := q fm, leverage := lev })
  | added (h : p.size ≠ 0) (hs : sign p.size = sign (signedQty side f)) :
    FillCase mmr b p side price f fm lev (none, refreshLiq mmr
      { p with
        entryPrice := q ((|p.size| * p.entryPrice + f * price) / (|p.size| + f))
        size := q (p.size + signedQty side f)
        margin := q (p.margin + fm)
        leverage := lev })
  | closed (h : p.size ≠ 0) (hs : sign p.size ≠ sign (signedQty side f))
    (h0 : |q (p.size + signedQty side f)| < 1e-9) :
    FillCase mmr b p side price f fm lev
      (some ((settled b p price f fm).release (q (p.margin - p.marginFreed f))),
        { p with
          realizedPnl := q (p.realizedPnl + p.pnl price f)
          size := 0
          entryPrice := 0
          margin := 0
          liqPrice := 0 })
  | flipped (h : p.size ≠ 0) (hs : sign p.size ≠ sign (signedQty side f))
    (h0 : ¬ |q (p.size + signedQty side f)| < 1e-9) (hf : f > |p.size|) :
    FillCase mmr b p side price f fm lev (some (settled b p price f fm), refreshLiq mmr
      { p with
        realizedPnl := q (p.realizedPnl + p.pnl price f)
        size := q (p.size + signedQty side f)
        entryPrice := price
        margin := q (fm - p.closedPortion f fm)
        leverage := lev })
  | reduced (h : p.size ≠ 0) (hs : sign p.size ≠ sign (signedQty side f))
    (h0 : ¬ |q (p.size + signedQty side f)| < 1e-9) (hf : ¬ f > |p.size|) :
    FillCase mmr b p side price f fm lev (some (settled b p price f fm), refreshLiq mmr
      { p with
        realizedPnl := q (p.realizedPnl + p.pnl price f)
        size := q (p.size + signedQty side f)
        margin := q (p.margin - p.marginFreed f) })

theorem fillLeg_case (mmr : ℚ) (b : Balance) (p : Position) (side : Side) (price f fm lev : ℚ) :
    FillCase mmr b p side price f fm lev (fillLeg mmr b p side price f fm lev) := by
  unfold fillLeg
  split_ifs with h hs h0 hf
  · exact .opened h
  · exact .added h hs
  · exact .closed h hs h0
  · exact .flipped h hs h0 hf
  · exact .reduced h hs h0 hf

end Perps
