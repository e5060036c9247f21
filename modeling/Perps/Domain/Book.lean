import Perps.Domain.State

/-! The order book. Bids stand highest price first, asks lowest price first. -/

namespace Perps

def levelsFor (state : EngineState) (side : Side) : List PriceLevel :=
  match side with
  | .Bid => state.bids
  | .Ask => state.asks

/-- Write the levels of one side back. -/
def setLevels (state : EngineState) (side : Side) (levels : List PriceLevel) : EngineState :=
  match side with
  | .Bid => { state with bids := levels }
  | .Ask => { state with asks := levels }

def betterFirst (side : Side) (a b : ℚ) : Bool :=
  match side with
  | .Bid => decide (a > b)
  | .Ask => decide (a < b)

/-- Put a new level in front of the first one it is better than. -/
def spliceLevel (side : Side) (l : PriceLevel) : List PriceLevel → List PriceLevel
  | [] => [l]
  | m :: ms => if betterFirst side l.price m.price then l :: m :: ms else m :: spliceLevel side l ms

/-- Append to the first level of that price. -/
def pushOrder (order : RestingOrder) : List PriceLevel → List PriceLevel
  | [] => []
  | l :: ls =>
    if l.price = order.price then { l with orders := l.orders ++ [order] } :: ls
    else l :: pushOrder order ls

def insertLevels (levels : List PriceLevel) (order : RestingOrder) : List PriceLevel :=
  let levels :=
    if (levels.find? fun l => l.price = order.price).isSome then levels
    else spliceLevel order.side { price := order.price, orders := [] } levels
  pushOrder order levels

def insertResting (state : EngineState) (order : RestingOrder) : EngineState :=
  setLevels state order.side (insertLevels (levelsFor state order.side) order)

/-- Drop the first level of that price if it is empty. -/
def removeEmptyLevel (levels : List PriceLevel) (price : ℚ) : List PriceLevel :=
  match levels with
  | [] => []
  | l :: ls =>
    if l.price = price then (if l.orders = [] then ls else l :: ls)
    else l :: removeEmptyLevel ls price

/-- Replace the orders of the first level of that price. -/
def setOrders (price : ℚ) (orders : List RestingOrder) : List PriceLevel → List PriceLevel
  | [] => []
  | l :: ls =>
    if l.price = price then { l with orders := orders } :: ls else l :: setOrders price orders ls

def cancelResting (state : EngineState) (side : Side) (price : ℚ) (orderId : String) :
    EngineState × Option RestingOrder :=
  let levels := levelsFor state side
  match levels.find? fun l => l.price = price with
  | none => (state, none)
  | some level =>
    match level.orders.find? fun o => o.orderId = orderId with
    | none => (state, none)
    | some removed =>
      let levels := setOrders price (level.orders.eraseP fun o => o.orderId = orderId) levels
      (setLevels state side (removeEmptyLevel levels price), some removed)

def levelQuantity (l : PriceLevel) : ℚ := l.orders.foldl (fun s o => s + o.remaining) 0

structure BookSnapshot where
  bids : List (ℚ × ℚ)
  asks : List (ℚ × ℚ)
  lastTradePrice : ℚ

def snapshot (state : EngineState) (levels : ℕ) : BookSnapshot where
  bids := (state.bids.take levels).map fun l => (l.price, levelQuantity l)
  asks := (state.asks.take levels).map fun l => (l.price, levelQuantity l)
  lastTradePrice := state.lastTradePrice

def bestPrice (state : EngineState) (side : Side) : Option ℚ :=
  (levelsFor state side).head?.map PriceLevel.price

end Perps
