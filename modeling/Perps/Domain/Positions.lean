import Perps.Domain.Balances
import Perps.Domain.Risk

/-! Positions: folding one fill leg in, marking to market, and the liquidation
sweep. The record is a local variable here and is stored once at the end, which
no function called in between can observe. -/

namespace Perps

open Lib

def Position.flat (userId : String) (markPrice : ℚ) : Position where
  userId := userId
  size := 0
  entryPrice := 0
  margin := 0
  leverage := 1
  liqPrice := 0
  realizedPnl := 0
  unrealizedPnl := 0
  markPrice := markPrice

def getPosition (state : EngineState) (userId : String) : Option Position :=
  state.positions.get? userId

def ensurePosition (state : EngineState) (userId : String) : EngineState × Position :=
  match state.positions.get? userId with
  | some p => (state, p)
  | none =>
    let p := Position.flat userId state.markPrice
    ({ state with positions := state.positions.set userId p }, p)

def Position.side (p : Position) : PositionSide := if p.size > 0 then .LONG else .SHORT

def refreshLiq (mmr : ℚ) (p : Position) : Position :=
  if p.size = 0 then { p with liqPrice := 0 }
  else { p with liqPrice := computeLiquidationPrice p.entryPrice p.leverage p.side mmr }

/-- Store a record. -/
def putPosition (state : EngineState) (userId : String) (p : Position) : EngineState :=
  { state with positions := state.positions.set userId p }

def signedQty (side : Side) (fillQty : ℚ) : ℚ :=
  match side with
  | .Bid => fillQty
  | .Ask => -fillQty

/-- Fold a single fill leg into a user's position. `fillMargin` is the
collateral of the filling order that goes with this quantity; what ends up
backing no open position is released at once. -/
def applyFill (state : EngineState) (userId : String) (side : Side)
    (price fillQty fillMargin leverage : ℚ) : EngineState :=
  let mmr := state.market.maintenanceMarginRate
  let (state, p) := ensurePosition state userId
  let signed := signedQty side fillQty
  if p.size = 0 then
    putPosition state userId (refreshLiq mmr
      { p with size := signed, entryPrice := price, margin := q fillMargin, leverage := leverage })
  else if sign p.size = sign signed then
    let absOld := |p.size|
    let newAbs := absOld + fillQty
    putPosition state userId (refreshLiq mmr
      { p with
        entryPrice := q ((absOld * p.entryPrice + fillQty * price) / newAbs)
        size := q (p.size + signed)
        margin := q (p.margin + fillMargin)
        leverage := leverage })
  else
    -- an opposing fill reduces, closes or flips
    let absPos := |p.size|
    let absTrade := fillQty
    let closedQty := min absPos absTrade
    let dir : ℚ := if p.size > 0 then 1 else -1
    let pnl := q ((price - p.entryPrice) * closedQty * dir)
    let marginFreed := q (closedQty / absPos * p.margin)
    let state := (release state userId marginFreed).1
    let state := applyPnl state userId pnl
    let p := { p with
      realizedPnl := q (p.realizedPnl + pnl)
      margin := q (p.margin - marginFreed)
      size := q (p.size + signed) }
    let closedPortionFillMargin := q (closedQty / absTrade * fillMargin)
    let state := (release state userId closedPortionFillMargin).1
    if |p.size| < 1e-9 then
      let state := (release state userId p.margin).1
      putPosition state userId { p with size := 0, entryPrice := 0, margin := 0, liqPrice := 0 }
    else if absTrade > absPos then
      putPosition state userId (refreshLiq mmr
        { p with
          entryPrice := price
          margin := q (fillMargin - closedPortionFillMargin)
          leverage := leverage })
    else
      putPosition state userId (refreshLiq mmr p)

def markPosition (markPrice : ℚ) (p : Position) : Position :=
  { p with
    markPrice := markPrice
    unrealizedPnl := if p.size = 0 then 0 else q ((markPrice - p.entryPrice) * p.size) }

def markToMarket (state : EngineState) (markPrice : ℚ) : EngineState :=
  { state with
    markPrice := markPrice
    positions := state.positions.mapValues (markPosition markPrice) }

/-- The test of the sweep on one record. -/
def underwater (markPrice : ℚ) (p : Position) : Bool :=
  !decide (p.size = 0) && isLiquidatable markPrice p.liqPrice p.side

/-- One round of the sweep, on the entry `e` of the position map. -/
def liquidateOne (markPrice : ℚ) (acc : EngineState × List PositionLiquidated)
    (e : String × Position) : EngineState × List PositionLiquidated :=
  let (state, out) := acc
  let p := e.2
  if underwater markPrice p then
    let pnl := q ((markPrice - p.entryPrice) * p.size)
    let state := (release state p.userId p.margin).1
    let state := applyPnl state p.userId pnl
    (putPosition state e.1
      { p with
        realizedPnl := q (p.realizedPnl + pnl)
        size := 0
        entryPrice := 0
        margin := 0
        liqPrice := 0
        unrealizedPnl := 0 },
      out ++ [{ userId := p.userId, markPrice := markPrice, realizedPnl := pnl }])
  else (state, out)

/-- Force-close every position that is underwater at `markPrice`, in the order
of the map. -/
def liquidationSweep (state : EngineState) (markPrice : ℚ) :
    EngineState × List PositionLiquidated :=
  state.positions.entries.foldl (liquidateOne markPrice) (state, [])

end Perps
