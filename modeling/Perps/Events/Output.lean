import Perps.Events.Input

/-! Output events, in the same envelope. -/

namespace Perps

inductive OrderStatus where
  | OPEN
  | PARTIAL
  | FILLED
  | CANCELLED
  | REJECTED
  deriving DecidableEq, Repr

structure OrderAccepted where
  orderId : String
  userId : String
  status : OrderStatus
  filledQuantity : ℚ
  remainingQuantity : ℚ
  avgFillPrice : ℚ
  deriving DecidableEq, Repr

structure OrderRejected where
  orderId : String
  userId : String
  reason : String
  deriving DecidableEq, Repr

structure OrderCancelled where
  orderId : String
  userId : String
  releasedMargin : ℚ
  deriving DecidableEq, Repr

structure TradeExecuted where
  tradeId : String
  symbol : String
  makerOrderId : String
  takerOrderId : String
  makerUserId : String
  takerUserId : String
  price : ℚ
  quantity : ℚ
  takerSide : Side
  ts : ℕ
  deriving DecidableEq, Repr

structure OrderBookDelta where
  symbol : String
  side : Side
  price : ℚ
  newQuantity : ℚ
  deriving DecidableEq, Repr

structure OrderBookSnapshot where
  symbol : String
  bids : List (ℚ × ℚ)
  asks : List (ℚ × ℚ)
  lastTradePrice : ℚ
  deriving DecidableEq, Repr

structure PositionUpdated where
  userId : String
  size : ℚ
  entryPrice : ℚ
  margin : ℚ
  leverage : ℚ
  liqPrice : ℚ
  realizedPnl : ℚ
  unrealizedPnl : ℚ
  markPrice : ℚ
  deriving DecidableEq, Repr

structure BalanceUpdated where
  userId : String
  total : ℚ
  free : ℚ
  locked : ℚ
  deriving DecidableEq, Repr

structure PositionLiquidated where
  userId : String
  markPrice : ℚ
  realizedPnl : ℚ
  deriving DecidableEq, Repr

structure CommandRejected where
  commandId : String
  reason : String
  deriving DecidableEq, Repr

/-- The payload, tagged with the `eventType` it goes with. A handler's
`DraftOutput` is such a payload, not yet stamped with an envelope. -/
inductive DraftOutput where
  | orderAccepted (p : OrderAccepted)
  | orderRejected (p : OrderRejected)
  | orderCancelled (p : OrderCancelled)
  | tradeExecuted (p : TradeExecuted)
  | orderBookDelta (p : OrderBookDelta)
  | orderBookSnapshot (p : OrderBookSnapshot)
  | positionUpdated (p : PositionUpdated)
  | balanceUpdated (p : BalanceUpdated)
  | positionLiquidated (p : PositionLiquidated)
  | commandRejected (p : CommandRejected)
  deriving DecidableEq, Repr

structure EngineOutputEvent extends EnvelopeMeta where
  payload : DraftOutput
  deriving DecidableEq, Repr

inductive EngineOutputEventType where
  | orderAccepted
  | orderRejected
  | orderCancelled
  | tradeExecuted
  | orderBookDelta
  | orderBookSnapshot
  | positionUpdated
  | balanceUpdated
  | positionLiquidated
  | commandRejected
  deriving DecidableEq, Repr

def DraftOutput.eventType : DraftOutput → EngineOutputEventType
  | .orderAccepted _ => .orderAccepted
  | .orderRejected _ => .orderRejected
  | .orderCancelled _ => .orderCancelled
  | .tradeExecuted _ => .tradeExecuted
  | .orderBookDelta _ => .orderBookDelta
  | .orderBookSnapshot _ => .orderBookSnapshot
  | .positionUpdated _ => .positionUpdated
  | .balanceUpdated _ => .balanceUpdated
  | .positionLiquidated _ => .positionLiquidated
  | .commandRejected _ => .commandRejected

/-- What `engineOutputEventSchema` admits: the payloads have types but no bounds. -/
def engineOutputEventSchema (e : EngineOutputEvent) : Prop := e.toEnvelopeMeta.Valid

instance : DecidablePred engineOutputEventSchema := fun e =>
  inferInstanceAs (Decidable e.toEnvelopeMeta.Valid)

end Perps
