import Perps.Domain.Money

/-! Margin requirements and liquidation prices. -/

namespace Perps

inductive PositionSide where
  | LONG
  | SHORT
  deriving DecidableEq, Repr

def notional (price quantity : ℚ) : ℚ := q (price * quantity)

/-- The source answers `Infinity` to a leverage that is not positive; `none`
stands for it. -/
def requiredMargin (price quantity leverage : ℚ) : Option ℚ :=
  if leverage ≤ 0 then none else some (q (notional price quantity / leverage))

def computeLiquidationPrice (entryPrice leverage : ℚ) (side : PositionSide) (mmr : ℚ) : ℚ :=
  if leverage ≤ 0 then 0
  else
    match side with
    | .LONG => q (max 0 (entryPrice * (1 - 1 / leverage + mmr)))
    | .SHORT => q (entryPrice * (1 + 1 / leverage - mmr))

def isLiquidatable (markPrice liqPrice : ℚ) (side : PositionSide) : Bool :=
  if liqPrice ≤ 0 then false
  else
    match side with
    | .LONG => decide (markPrice ≤ liqPrice)
    | .SHORT => decide (markPrice ≥ liqPrice)

end Perps
