import Perps.Events.Output
import Perps.Lib.Zod

/-! The wire format of a stream entry: an event is an object, printed as JSON under
`data`, and decoded against the schema of its `eventType`. -/

namespace Perps

open Lib

/-! Events as objects -/

def Side.name : Side → String
  | .Bid => "Bid"
  | .Ask => "Ask"

def OrderType.name : OrderType → String
  | .LIMIT => "LIMIT"
  | .MARKET => "MARKET"

def OrderStatus.name : OrderStatus → String
  | .OPEN => "OPEN"
  | .PARTIAL => "PARTIAL"
  | .FILLED => "FILLED"
  | .CANCELLED => "CANCELLED"
  | .REJECTED => "REJECTED"

def InputPayload.eventType : InputPayload → String
  | .userCreated _ => "user.created"
  | .balanceDeposited _ => "balance.deposited"
  | .orderPlace _ => "order.place"
  | .orderCancel _ => "order.cancel"
  | .indexPriceUpdated _ => "index_price.updated"

def EngineOutputEventType.name : EngineOutputEventType → String
  | .orderAccepted => "order.accepted"
  | .orderRejected => "order.rejected"
  | .orderCancelled => "order.cancelled"
  | .tradeExecuted => "trade.executed"
  | .orderBookDelta => "orderbook.delta"
  | .orderBookSnapshot => "orderbook.snapshot"
  | .positionUpdated => "position.updated"
  | .balanceUpdated => "balance.updated"
  | .positionLiquidated => "position.liquidated"
  | .commandRejected => "command.rejected"

def InputPayload.toObject : InputPayload → JsObject
  | .userCreated p =>
    [("userId", some (.str p.userId)), ("openingBalance", some (.num p.openingBalance))]
  | .balanceDeposited p => [("userId", some (.str p.userId)), ("amount", some (.num p.amount))]
  | .orderPlace p =>
    [("userId", some (.str p.userId)), ("orderId", some (.str p.orderId)),
      ("side", some (.str p.side.name)), ("orderType", some (.str p.orderType.name)),
      ("quantity", some (.num p.quantity)), ("price", some (.num p.price)),
      ("leverage", some (.num p.leverage)), ("margin", some (.num p.margin))]
  | .orderCancel p =>
    [("userId", some (.str p.userId)), ("orderId", some (.str p.orderId)),
      ("side", some (.str p.side.name)), ("price", some (.num p.price))]
  | .indexPriceUpdated p =>
    [("symbol", some (.str p.symbol)), ("price", some (.num p.price)),
      ("observerSeq", some (.num p.observerSeq)), ("sourceTs", some (.num p.sourceTs))]

/-- The object literals of the engine's handlers. -/
def DraftOutput.toObject : DraftOutput → JsObject
  | .orderAccepted p =>
    [("orderId", some (.str p.orderId)), ("userId", some (.str p.userId)),
      ("status", some (.str p.status.name)), ("filledQuantity", some (.num p.filledQuantity)),
      ("remainingQuantity", some (.num p.remainingQuantity)),
      ("avgFillPrice", some (.num p.avgFillPrice))]
  | .orderRejected p =>
    [("orderId", some (.str p.orderId)), ("userId", some (.str p.userId)),
      ("reason", some (.str p.reason))]
  | .orderCancelled p =>
    [("orderId", some (.str p.orderId)), ("userId", some (.str p.userId)),
      ("releasedMargin", some (.num p.releasedMargin))]
  | .tradeExecuted p =>
    [("tradeId", some (.str p.tradeId)), ("symbol", some (.str p.symbol)),
      ("makerOrderId", some (.str p.makerOrderId)), ("takerOrderId", some (.str p.takerOrderId)),
      ("makerUserId", some (.str p.makerUserId)), ("takerUserId", some (.str p.takerUserId)),
      ("price", some (.num p.price)), ("quantity", some (.num p.quantity)),
      ("takerSide", some (.str p.takerSide.name)), ("ts", some (.num p.ts))]
  | .orderBookDelta p =>
    [("symbol", some (.str p.symbol)), ("side", some (.str p.side.name)),
      ("price", some (.num p.price)), ("newQuantity", some (.num p.newQuantity))]
  | .orderBookSnapshot p =>
    [("symbol", some (.str p.symbol)), ("bids", some (levels p.bids)), ("asks", some (levels p.asks)),
      ("lastTradePrice", some (.num p.lastTradePrice))]
  | .positionUpdated p =>
    [("userId", some (.str p.userId)), ("size", some (.num p.size)),
      ("entryPrice", some (.num p.entryPrice)), ("margin", some (.num p.margin)),
      ("leverage", some (.num p.leverage)), ("liqPrice", some (.num p.liqPrice)),
      ("realizedPnl", some (.num p.realizedPnl)), ("unrealizedPnl", some (.num p.unrealizedPnl)),
      ("markPrice", some (.num p.markPrice))]
  | .balanceUpdated p =>
    [("userId", some (.str p.userId)), ("total", some (.num p.total)), ("free", some (.num p.free)),
      ("locked", some (.num p.locked))]
  | .positionLiquidated p =>
    [("userId", some (.str p.userId)), ("markPrice", some (.num p.markPrice)),
      ("realizedPnl", some (.num p.realizedPnl))]
  | .commandRejected p =>
    [("commandId", some (.str p.commandId)), ("reason", some (.str p.reason))]
where
  levels (ls : List (ℚ × ℚ)) : Json := .arr (ls.map fun l => .arr [.num l.1, .num l.2])

/-- An event with its envelope, as `stamp` builds it. -/
def EnvelopeMeta.toObject (m : EnvelopeMeta) (eventType : String) (payload : Json) : JsObject :=
  [("eventId", some (.str m.eventId)), ("eventType", some (.str eventType)), ("ts", some (.num m.ts)),
    ("source", some (.str m.source)), ("schemaVersion", some (.num m.schemaVersion)),
    ("correlationId", m.correlationId.map .str), ("causationId", m.causationId.map .str),
    ("commandId", m.commandId.map .str), ("payload", some payload)]

def EngineOutputEvent.toObject (o : EngineOutputEvent) : JsObject :=
  o.toEnvelopeMeta.toObject o.payload.eventType.name o.payload.toObject.stringify

namespace Wire

/-! Schemas -/

open Schema

def sideSchema : Schema Side := .enum [.Bid, .Ask] Side.name

def orderTypeSchema : Schema OrderType := .enum [.LIMIT, .MARKET] OrderType.name

def orderStatusSchema : Schema OrderStatus :=
  .enum [.OPEN, .PARTIAL, .FILLED, .CANCELLED, .REJECTED] OrderStatus.name

def nonnegative : Schema ℚ := number.refine (0 ≤ ·)

def positive : Schema ℚ := number.refine (0 < ·)

def envelopeBase (get : String → Option Json) : Option EnvelopeMeta := do
  return {
    eventId := ← nonempty.key "eventId" get
    ts := ← natural.key "ts" get
    source := ← nonempty.key "source" get
    schemaVersion := ← (natural.refine (0 < ·)).key "schemaVersion" get
    correlationId := ← nonempty.optionalKey "correlationId" get
    causationId := ← nonempty.optionalKey "causationId" get
    commandId := ← nonempty.optionalKey "commandId" get }

/-- An option of a union of events, under its `eventType`. -/
def withEnvelope {α : Type} (eventType : String) (payload : Schema α) :
    String × ((String → Option Json) → Option (EnvelopeMeta × α)) :=
  (eventType, fun get => do return (← envelopeBase get, ← payload.key "payload" get))

def userCreated : Schema UserCreated := .object fun get => do
  return {
    userId := ← nonempty.key "userId" get
    openingBalance := ← nonnegative.key "openingBalance" get }

def balanceDeposited : Schema BalanceDeposited := .object fun get => do
  return {
    userId := ← nonempty.key "userId" get
    amount := ← positive.key "amount" get }

def placeOrderCommand : Schema PlaceOrder := .object fun get => do
  return {
    userId := ← nonempty.key "userId" get
    orderId := ← nonempty.key "orderId" get
    side := ← sideSchema.key "side" get
    orderType := ← orderTypeSchema.key "orderType" get
    quantity := ← positive.key "quantity" get
    price := ← nonnegative.key "price" get
    leverage := ← positive.key "leverage" get
    margin := ← positive.key "margin" get }

def cancelOrderCommand : Schema CancelOrder := .object fun get => do
  return {
    userId := ← nonempty.key "userId" get
    orderId := ← nonempty.key "orderId" get
    side := ← sideSchema.key "side" get
    price := ← nonnegative.key "price" get }

def indexPriceUpdated : Schema IndexPriceUpdated := .object fun get => do
  return {
    symbol := ← nonempty.key "symbol" get
    price := ← positive.key "price" get
    observerSeq := ← natural.key "observerSeq" get
    sourceTs := ← natural.key "sourceTs" get }

def engineInputEventSchema : Schema EngineInputEvent :=
  (discriminatedUnion "eventType" [
    withEnvelope "user.created" (userCreated.map .userCreated),
    withEnvelope "balance.deposited" (balanceDeposited.map .balanceDeposited),
    withEnvelope "order.place" (placeOrderCommand.map .orderPlace),
    withEnvelope "order.cancel" (cancelOrderCommand.map .orderCancel),
    withEnvelope "index_price.updated" (indexPriceUpdated.map .indexPriceUpdated)]).map
  fun event => { toEnvelopeMeta := event.1, payload := event.2 }

def orderAccepted : Schema OrderAccepted := .object fun get => do
  return {
    orderId := ← string.key "orderId" get
    userId := ← string.key "userId" get
    status := ← orderStatusSchema.key "status" get
    filledQuantity := ← number.key "filledQuantity" get
    remainingQuantity := ← number.key "remainingQuantity" get
    avgFillPrice := ← number.key "avgFillPrice" get }

def orderRejected : Schema OrderRejected := .object fun get => do
  return {
    orderId := ← string.key "orderId" get
    userId := ← string.key "userId" get
    reason := ← string.key "reason" get }

def orderCancelled : Schema OrderCancelled := .object fun get => do
  return {
    orderId := ← string.key "orderId" get
    userId := ← string.key "userId" get
    releasedMargin := ← number.key "releasedMargin" get }

/-- The time of a trade is that of its command, so a natural number here. -/
def tradeExecuted : Schema TradeExecuted := .object fun get => do
  return {
    tradeId := ← string.key "tradeId" get
    symbol := ← string.key "symbol" get
    makerOrderId := ← string.key "makerOrderId" get
    takerOrderId := ← string.key "takerOrderId" get
    makerUserId := ← string.key "makerUserId" get
    takerUserId := ← string.key "takerUserId" get
    price := ← number.key "price" get
    quantity := ← number.key "quantity" get
    takerSide := ← sideSchema.key "takerSide" get
    ts := ← natural.key "ts" get }

def orderBookDelta : Schema OrderBookDelta := .object fun get => do
  return {
    symbol := ← string.key "symbol" get
    side := ← sideSchema.key "side" get
    price := ← number.key "price" get
    newQuantity := ← number.key "newQuantity" get }

def orderBookSnapshot : Schema OrderBookSnapshot := .object fun get => do
  return {
    symbol := ← string.key "symbol" get
    bids := ← (array (tuple number number)).key "bids" get
    asks := ← (array (tuple number number)).key "asks" get
    lastTradePrice := ← number.key "lastTradePrice" get }

def positionUpdated : Schema PositionUpdated := .object fun get => do
  return {
    userId := ← string.key "userId" get
    size := ← number.key "size" get
    entryPrice := ← number.key "entryPrice" get
    margin := ← number.key "margin" get
    leverage := ← number.key "leverage" get
    liqPrice := ← number.key "liqPrice" get
    realizedPnl := ← number.key "realizedPnl" get
    unrealizedPnl := ← number.key "unrealizedPnl" get
    markPrice := ← number.key "markPrice" get }

def balanceUpdated : Schema BalanceUpdated := .object fun get => do
  return {
    userId := ← string.key "userId" get
    total := ← number.key "total" get
    free := ← number.key "free" get
    locked := ← number.key "locked" get }

def positionLiquidated : Schema PositionLiquidated := .object fun get => do
  return {
    userId := ← string.key "userId" get
    markPrice := ← number.key "markPrice" get
    realizedPnl := ← number.key "realizedPnl" get }

def commandRejected : Schema CommandRejected := .object fun get => do
  return {
    commandId := ← string.key "commandId" get
    reason := ← string.key "reason" get }

def engineOutputEventSchema : Schema EngineOutputEvent :=
  (discriminatedUnion "eventType" [
    withEnvelope "order.accepted" (orderAccepted.map .orderAccepted),
    withEnvelope "order.rejected" (orderRejected.map .orderRejected),
    withEnvelope "order.cancelled" (orderCancelled.map .orderCancelled),
    withEnvelope "trade.executed" (tradeExecuted.map .tradeExecuted),
    withEnvelope "orderbook.delta" (orderBookDelta.map .orderBookDelta),
    withEnvelope "orderbook.snapshot" (orderBookSnapshot.map .orderBookSnapshot),
    withEnvelope "position.updated" (positionUpdated.map .positionUpdated),
    withEnvelope "balance.updated" (balanceUpdated.map .balanceUpdated),
    withEnvelope "position.liquidated" (positionLiquidated.map .positionLiquidated),
    withEnvelope "command.rejected" (commandRejected.map .commandRejected)]).map
  fun event => { toEnvelopeMeta := event.1, payload := event.2 }

/-! The codec -/

/-- `data` is the JSON that the text holds, if it is there and holds any. -/
structure StreamFields where
  data : Option Json
  eventType : Option Json
  eventId : Option Json
  commandId : Option Json
  correlationId : Option Json

/-- A property that is there and not empty. -/
def truthy : Option Json → Option Json
  | some (.str s) => if s = "" then none else some (.str s)
  | v => v

def encodeEvent (event : JsObject) : StreamFields where
  data := some event.stringify
  eventType := event.get "eventType"
  eventId := event.get "eventId"
  commandId := truthy (event.get "commandId")
  correlationId := truthy (event.get "correlationId")

/-- A number that is greater than the supported version. -/
def newer (parsed : Json) : Bool :=
  match parsed.field "schemaVersion" with
  | some (.num n) => n > SCHEMA_VERSION
  | _ => false

def decodeWith {α : Type} (schema : Schema α) (fields : StreamFields) : Option α :=
  match fields.data with
  | none => none
  | some parsed => if newer parsed then none else schema.parse parsed

def decodeInputEvent (fields : StreamFields) : Option EngineInputEvent :=
  decodeWith engineInputEventSchema fields

def decodeOutputEvent (fields : StreamFields) : Option EngineOutputEvent :=
  decodeWith engineOutputEventSchema fields

end Wire

end Perps
