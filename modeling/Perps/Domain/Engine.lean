import Perps.Domain.Positions
import Perps.Domain.Book
import Perps.Lib.Loop

/-! The engine: the handlers of the five input events and `process`. The two
nested matching loops are bounded by the number of orders and of levels, which
`Perps.Domain.Matching` shows to be enough. -/

namespace Perps

open Lib

def MAX_APPLIED_COMMANDS : ℕ := 50000

def maker_side (takerSide : Side) : Side :=
  match takerSide with
  | .Bid => .Ask
  | .Ask => .Bid

namespace Engine

def nextSeq (state : EngineState) : EngineState × ℕ :=
  ({ state with seq := state.seq + 1 }, state.seq + 1)

/-! Drafts -/

def balanceDraft (state : EngineState) (userId : String) : EngineState × DraftOutput :=
  let (state, b) := ensureBalance state userId
  (state, .balanceUpdated { userId := userId, total := b.total, free := b.free, locked := b.locked })

def positionDraft (state : EngineState) (userId : String) : EngineState × DraftOutput :=
  let (state, p) :=
    match getPosition state userId with
    | some p => (state, p)
    | none => ensurePosition state userId
  (state, .positionUpdated
    { userId := userId
      size := p.size
      entryPrice := p.entryPrice
      margin := p.margin
      leverage := p.leverage
      liqPrice := p.liqPrice
      realizedPnl := p.realizedPnl
      unrealizedPnl := p.unrealizedPnl
      markPrice := p.markPrice })

def deltaDraft (state : EngineState) (side : Side) (price : ℚ) : DraftOutput :=
  .orderBookDelta
    { symbol := state.market.symbol
      side := side
      price := price
      newQuantity :=
        match (levelsFor state side).find? fun l => l.price = price with
        | some level => levelQuantity level
        | none => 0 }

/-! Placing an order: the checks -/

def refPrice (state : EngineState) (o : PlaceOrder) : ℚ :=
  match o.orderType with
  | .LIMIT => o.price
  | .MARKET => (bestPrice state (maker_side o.side)).getD state.markPrice

/-- `margin + 1e-6 < requiredMargin(...)`. -/
def marginShort (price quantity leverage margin : ℚ) : Bool :=
  match requiredMargin price quantity leverage with
  | some minReq => decide (margin + 1e-6 < minReq)
  | none => true

/-- The reason of the first check that fails, before the collateral is locked. -/
def placeRejection (state : EngineState) (o : PlaceOrder) : Option String :=
  let maxLeverage := state.market.maxLeverage
  let minMargin := state.market.minMargin
  if !state.balances.has o.userId then some "user does not exist"
  else if o.leverage ≤ 0 ∨ o.leverage > maxLeverage then
    some s!"leverage must be between 1 and {maxLeverage}"
  else if o.margin < minMargin then some s!"margin must be at least {minMargin}"
  else if refPrice state o > 0 ∧ marginShort (refPrice state o) o.quantity o.leverage o.margin then
    some "margin is insufficient for the requested size and leverage"
  else none

def rejectPlace (e : EnvelopeMeta) (o : PlaceOrder) (reason : String) : List DraftOutput :=
  [.orderRejected { orderId := o.orderId, userId := o.userId, reason := reason },
    .commandRejected { commandId := e.commandId.getD o.orderId, reason := reason }]

/-! Placing an order: matching -/

/-- An entry of `makerTouched`. -/
structure MakerTouched where
  restingQty : ℚ
  filled : ℚ
  userId : String
  deriving DecidableEq, Repr

/-- The local variables of the matching loops, with the state they mutate. -/
structure Matching where
  state : EngineState
  remaining : ℚ
  filledNotional : ℚ
  makerTouched : OrdMap String MakerTouched
  affected : List String
  outs : List DraftOutput

/-- `Set.add` on a set that remembers insertion order. -/
def addUser (users : List String) (userId : String) : List String :=
  if userId ∈ users then users else users ++ [userId]

def marginPerUnit (o : PlaceOrder) : ℚ := o.margin / o.quantity

def takerFillMargin (o : PlaceOrder) (fillQty : ℚ) : ℚ := q (fillQty * marginPerUnit o)

def makerFillMargin (maker : RestingOrder) (fillQty : ℚ) : ℚ :=
  if maker.remaining > 0 then q (fillQty / maker.remaining * maker.margin) else 0

/-- What the fill leaves of the maker's own record. -/
def fillMaker (maker : RestingOrder) (fillQty : ℚ) : RestingOrder :=
  { maker with
    remaining := q (maker.remaining - fillQty)
    margin := q (maker.margin - makerFillMargin maker fillQty) }

/-- One fill against `maker`, apart from the maker's own record: positions,
balances, the loop's accumulators and the trade. -/
def settleFill (e : EnvelopeMeta) (o : PlaceOrder) (m : Matching) (maker : RestingOrder) :
    Matching :=
  let fillQty := min m.remaining maker.remaining
  let fillPrice := maker.price
  let state := applyFill m.state maker.userId maker.side fillPrice fillQty
    (makerFillMargin maker fillQty) maker.leverage
  let state := applyFill state o.userId o.side fillPrice fillQty
    (takerFillMargin o fillQty) o.leverage
  let mt := (m.makerTouched.get? maker.orderId).getD
    { restingQty := maker.quantity, filled := 0, userId := maker.userId }
  let (state, n) := nextSeq { state with lastTradePrice := fillPrice }
  let symbol := state.market.symbol
  { state := state
    remaining := q (m.remaining - fillQty)
    filledNotional := q (m.filledNotional + fillPrice * fillQty)
    makerTouched := m.makerTouched.set maker.orderId { mt with filled := q (mt.filled + fillQty) }
    affected := addUser m.affected maker.userId
    outs := m.outs ++ [.tradeExecuted
      { tradeId := s!"{symbol}-{n}"
        symbol := symbol
        makerOrderId := maker.orderId
        takerOrderId := o.orderId
        makerUserId := maker.userId
        takerUserId := o.userId
        price := fillPrice
        quantity := fillQty
        takerSide := o.side
        ts := e.ts }] }

/-- `if (maker.remaining <= 1e-9) level.orders.shift()`. -/
def shiftFilled (maker : RestingOrder) (rest : List RestingOrder) : List RestingOrder :=
  if maker.remaining ≤ 1e-9 then rest else maker :: rest

/-- The body of the inner loop: one fill against the head of the best level. -/
def matchHead (e : EnvelopeMeta) (o : PlaceOrder) (m : Matching) : Matching :=
  match levelsFor m.state (maker_side o.side) with
  | { price, orders := maker :: rest } :: more =>
    let m' := settleFill e o m maker
    let orders := shiftFilled (fillMaker maker (min m.remaining maker.remaining)) rest
    { m' with
      state := setLevels m'.state (maker_side o.side) ({ price := price, orders := orders } :: more) }
  | _ => m

def crosses (o : PlaceOrder) (price : ℚ) : Bool :=
  match o.orderType, o.side with
  | .MARKET, _ => true
  | .LIMIT, .Bid => decide (price ≤ o.price)
  | .LIMIT, .Ask => decide (price ≥ o.price)

def headOrders (o : PlaceOrder) (m : Matching) : List RestingOrder :=
  match levelsFor m.state (maker_side o.side) with
  | [] => []
  | level :: _ => level.orders

/-- `remaining > 1e-9 && level.orders.length > 0`. -/
def InnerCond (o : PlaceOrder) (m : Matching) : Prop := m.remaining > 1e-9 ∧ headOrders o m ≠ []

/-- `remaining > 1e-9 && makerLevels.length > 0`, and no `break`. -/
def OuterCond (o : PlaceOrder) (m : Matching) : Prop :=
  m.remaining > 1e-9 ∧
    ∃ level ∈ (levelsFor m.state (maker_side o.side)).head?, crosses o level.price = true

instance (o : PlaceOrder) : DecidablePred (InnerCond o) := fun m =>
  inferInstanceAs (Decidable (m.remaining > 1e-9 ∧ headOrders o m ≠ []))

instance (o : PlaceOrder) : DecidablePred (OuterCond o) := fun m =>
  decidable_of_iff (m.remaining > 1e-9 ∧
    ((levelsFor m.state (maker_side o.side)).head?.any fun level => crosses o level.price) = true)
    (by unfold OuterCond; cases (levelsFor m.state (maker_side o.side)).head? <;> simp)

/-- The body of the outer loop: empty the best level as far as it goes. -/
def matchLevel (e : EnvelopeMeta) (o : PlaceOrder) (m : Matching) : Matching :=
  match levelsFor m.state (maker_side o.side) with
  | [] => m
  | level :: _ =>
    let m := loop (InnerCond o) (matchHead e o) (level.orders.length + 1) m
    let delta := deltaDraft m.state (maker_side o.side) level.price
    let levels := removeEmptyLevel (levelsFor m.state (maker_side o.side)) level.price
    { m with
      state := setLevels m.state (maker_side o.side) levels
      outs := m.outs ++ [delta] }

def matchLoop (e : EnvelopeMeta) (o : PlaceOrder) (m : Matching) : Matching :=
  loop (OuterCond o) (matchLevel e o) ((levelsFor m.state (maker_side o.side)).length + 1) m

/-- The state of the loops before the first fill. -/
def matchStart (state : EngineState) (o : PlaceOrder) : Matching where
  state := state
  remaining := o.quantity
  filledNotional := 0
  makerTouched := OrdMap.empty
  affected := [o.userId]
  outs := []

/-! Placing an order: what is left, and the reports -/

/-- The order that comes to rest with what matching left. -/
def restingOrder (e : EnvelopeMeta) (o : PlaceOrder) (remaining : ℚ) (seq : ℕ) : RestingOrder where
  orderId := o.orderId
  userId := o.userId
  side := o.side
  price := o.price
  quantity := remaining
  remaining := remaining
  leverage := o.leverage
  margin := q (remaining * marginPerUnit o)
  seq := seq
  ts := e.ts

/-- Rest what is left of a limit order, refund what is left of a market order. -/
def settleRemainder (e : EnvelopeMeta) (o : PlaceOrder) (m : Matching) :
    EngineState × List DraftOutput × OrderStatus :=
  let filled := q (o.quantity - m.remaining)
  if o.orderType = .LIMIT ∧ m.remaining > 1e-9 then
    let (state, n) := nextSeq m.state
    let state := insertResting state (restingOrder e o m.remaining n)
    (state, m.outs ++ [deltaDraft state o.side o.price], if filled > 0 then .PARTIAL else .OPEN)
  else if o.orderType = .MARKET ∧ m.remaining > 1e-9 then
    let state := (release m.state o.userId (q (m.remaining * marginPerUnit o))).1
    (state, m.outs, if filled > 0 then .PARTIAL else .CANCELLED)
  else (m.state, m.outs, .FILLED)

/-- The `order.accepted` of a touched maker. -/
def makerReport (t : String × MakerTouched) : DraftOutput :=
  let remainingMaker := q (t.2.restingQty - t.2.filled)
  .orderAccepted
    { orderId := t.1
      userId := t.2.userId
      status := if remainingMaker > 1e-9 then .PARTIAL else .FILLED
      filledQuantity := t.2.filled
      remainingQuantity := max 0 remainingMaker
      avgFillPrice := 0 }

/-- The `order.accepted` of the order itself. -/
def takerReport (o : PlaceOrder) (m : Matching) (status : OrderStatus) : DraftOutput :=
  let filled := q (o.quantity - m.remaining)
  .orderAccepted
    { orderId := o.orderId
      userId := o.userId
      status := status
      filledQuantity := filled
      remainingQuantity := m.remaining
      avgFillPrice := if filled > 0 then q (m.filledNotional / filled) else 0 }

/-- The account events of one affected user. -/
def accountDrafts (acc : EngineState × List DraftOutput) (userId : String) :
    EngineState × List DraftOutput :=
  let (state, b) := balanceDraft acc.1 userId
  let (state, p) := positionDraft state userId
  (state, acc.2 ++ [b, p])

/-- The part of `onPlaceOrder` after the collateral has been locked. -/
def placeAccepted (e : EnvelopeMeta) (o : PlaceOrder) (state : EngineState) :
    EngineState × List DraftOutput :=
  let m := matchLoop e o (matchStart state o)
  let (state, outs, status) := settleRemainder e o m
  let outs := outs ++ m.makerTouched.entries.map makerReport
  let (state, outs) := m.affected.foldl accountDrafts (state, outs)
  (state, outs ++ [takerReport o m status])

def onPlaceOrder (state : EngineState) (e : EnvelopeMeta) (o : PlaceOrder) :
    EngineState × List DraftOutput :=
  match placeRejection state o with
  | some reason => (state, rejectPlace e o reason)
  | none =>
    let (state, locked) := lock state o.userId o.margin
    if !locked then (state, rejectPlace e o "insufficient free balance")
    else placeAccepted e o state

/-! The other handlers -/

def onUserCreated (state : EngineState) (p : UserCreated) : EngineState × List DraftOutput :=
  let (state, _) := ensureBalance state p.userId
  let state := if p.openingBalance > 0 then credit state p.userId p.openingBalance else state
  let (state, b) := balanceDraft state p.userId
  (state, [b])

def onBalanceDeposited (state : EngineState) (p : BalanceDeposited) :
    EngineState × List DraftOutput :=
  let (state, _) := ensureBalance state p.userId
  let state := credit state p.userId p.amount
  let (state, b) := balanceDraft state p.userId
  (state, [b])

/-- The resting order a cancellation names, if it is the user's own. -/
def cancelTarget (state : EngineState) (c : CancelOrder) : Option RestingOrder := do
  let level ← (levelsFor state c.side).find? fun l => l.price = c.price
  let target ← level.orders.find? fun x => x.orderId = c.orderId
  if target.userId ≠ c.userId then none else some target

def onCancelOrder (state : EngineState) (e : EnvelopeMeta) (c : CancelOrder) :
    EngineState × List DraftOutput :=
  match cancelTarget state c with
  | none =>
    (state,
      [.orderRejected { orderId := c.orderId, userId := c.userId, reason := "order not found" },
        .commandRejected
          { commandId := e.commandId.getD c.orderId, reason := "order not found" }])
  | some _ =>
    match cancelResting state c.side c.price c.orderId with
    -- the source asserts that the order found above is there
    | (state, none) => (state, [])
    | (state, some removed) =>
      let (state, released) := release state c.userId removed.margin
      let delta := deltaDraft state c.side c.price
      let (state, b) := balanceDraft state c.userId
      (state, [delta, b, .orderCancelled
        { orderId := c.orderId, userId := c.userId, releasedMargin := released }])

/-- The events of one liquidated user. -/
def liquidationDrafts (acc : EngineState × List DraftOutput) (liq : PositionLiquidated) :
    EngineState × List DraftOutput :=
  let (state, b) := balanceDraft acc.1 liq.userId
  let (state, p) := positionDraft state liq.userId
  (state, acc.2 ++ [.positionLiquidated liq, b, p])

def onIndexPrice (state : EngineState) (p : IndexPriceUpdated) : EngineState × List DraftOutput :=
  if (p.observerSeq : ℤ) ≤ state.lastObserverSeq then (state, [])
  else
    let state := { state with lastObserverSeq := p.observerSeq }
    let state := markToMarket state p.price
    let (state, liquidations) := liquidationSweep state p.price
    liquidations.foldl liquidationDrafts (state, [])

def dispatch (state : EngineState) (event : EngineInputEvent) : EngineState × List DraftOutput :=
  match event.payload with
  | .userCreated p => onUserCreated state p
  | .balanceDeposited p => onBalanceDeposited state p
  | .orderPlace o => onPlaceOrder state event.toEnvelopeMeta o
  | .orderCancel c => onCancelOrder state event.toEnvelopeMeta c
  | .indexPriceUpdated p => onIndexPrice state p

/-! Processing one event -/

def alreadyApplied (state : EngineState) (event : EngineInputEvent) : Bool :=
  match event.commandId with
  | some commandId => decide (commandId ∈ state.appliedCommandIds)
  | none => false

def recordCommand (state : EngineState) (commandId : Option String) : EngineState :=
  match commandId with
  | some commandId =>
    let ids := state.appliedCommandIds ++ [commandId]
    { state with appliedCommandIds := ids.drop (ids.length - MAX_APPLIED_COMMANDS) }
  | none => state

def stamp (src : EnvelopeMeta) (state : EngineState) (d : DraftOutput) :
    EngineState × EngineOutputEvent :=
  let (state, n) := nextSeq state
  (state,
    { eventId := s!"evt_{n}"
      ts := src.ts
      source := "engine"
      schemaVersion := SCHEMA_VERSION
      correlationId := src.correlationId
      causationId := some src.eventId
      commandId := src.commandId
      payload := d })

def stampAll (src : EnvelopeMeta) (state : EngineState) :
    List DraftOutput → EngineState × List EngineOutputEvent
  | [] => (state, [])
  | d :: ds =>
    let (state, out) := stamp src state d
    let (state, outs) := stampAll src state ds
    (state, out :: outs)

/-- The changes of an event to the state, and its outputs before stamping. -/
def reduce (state : EngineState) (event : EngineInputEvent) : EngineState × List DraftOutput :=
  if alreadyApplied state event then (state, [])
  else
    let (state, drafts) := dispatch state event
    let state := recordCommand state event.commandId
    ({ state with appliedCount := state.appliedCount + 1 }, drafts)

def process (state : EngineState) (event : EngineInputEvent) (streamId : StreamId) :
    EngineState × List EngineOutputEvent :=
  let (state, drafts) := reduce state event
  stampAll event.toEnvelopeMeta { state with lastInputId := streamId } drafts

/-- Process a sequence of entries, collecting the outputs. -/
def run (state : EngineState) :
    List (EngineInputEvent × StreamId) → EngineState × List EngineOutputEvent
  | [] => (state, [])
  | (event, streamId) :: rest =>
    let (state, outs) := process state event streamId
    let (state, more) := run state rest
    (state, outs ++ more)

def fromSnapshot (s : SerializedState) : Option EngineState := deserialize s

def snapshot (state : EngineState) : SerializedState := serialize state

end Engine

end Perps
