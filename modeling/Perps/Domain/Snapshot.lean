import Perps.Domain.Engine
import Perps.Lib.Json

/-! Snapshots as JSON: every record as the object of its fields. `restore` takes
a snapshot, passes it through JSON and rebuilds an engine state from it. -/

namespace Perps

open Lib

namespace Codec

open Lib.Codec

def side : Codec Side where
  enc
    | .Bid => .str "Bid"
    | .Ask => .str "Ask"
  dec
    | .str "Bid" => some .Bid
    | .str "Ask" => some .Ask
    | _ => none
  dec_enc s := by cases s <;> rfl

/-- A stream id is written as its two numbers. -/
def streamId : Codec StreamId where
  enc id := (pair nat nat).enc (id.ms, id.seq)
  dec j := (pair nat nat).dec j |>.map fun p => ⟨p.1, p.2⟩
  dec_enc id := by simp [(pair nat nat).dec_enc]

def market : Codec MarketConfig where
  enc m := .obj
    [("symbol", str.enc m.symbol), ("maxLeverage", num.enc m.maxLeverage),
      ("minMargin", num.enc m.minMargin),
      ("maintenanceMarginRate", num.enc m.maintenanceMarginRate)]
  dec j := do
    return {
      symbol := ← str.readField "symbol" j
      maxLeverage := ← num.readField "maxLeverage" j
      minMargin := ← num.readField "minMargin" j
      maintenanceMarginRate := ← num.readField "maintenanceMarginRate" j }
  dec_enc _ := rfl

def balance : Codec Balance where
  enc b := .obj
    [("total", num.enc b.total), ("free", num.enc b.free), ("locked", num.enc b.locked)]
  dec j := do
    return {
      total := ← num.readField "total" j
      free := ← num.readField "free" j
      locked := ← num.readField "locked" j }
  dec_enc _ := rfl

def position : Codec Position where
  enc p := .obj
    [("userId", str.enc p.userId), ("size", num.enc p.size), ("entryPrice", num.enc p.entryPrice),
      ("margin", num.enc p.margin), ("leverage", num.enc p.leverage),
      ("liqPrice", num.enc p.liqPrice), ("realizedPnl", num.enc p.realizedPnl),
      ("unrealizedPnl", num.enc p.unrealizedPnl), ("markPrice", num.enc p.markPrice)]
  dec j := do
    return {
      userId := ← str.readField "userId" j
      size := ← num.readField "size" j
      entryPrice := ← num.readField "entryPrice" j
      margin := ← num.readField "margin" j
      leverage := ← num.readField "leverage" j
      liqPrice := ← num.readField "liqPrice" j
      realizedPnl := ← num.readField "realizedPnl" j
      unrealizedPnl := ← num.readField "unrealizedPnl" j
      markPrice := ← num.readField "markPrice" j }
  dec_enc _ := rfl

def restingOrder : Codec RestingOrder where
  enc o := .obj
    [("orderId", str.enc o.orderId), ("userId", str.enc o.userId), ("side", side.enc o.side),
      ("price", num.enc o.price), ("quantity", num.enc o.quantity),
      ("remaining", num.enc o.remaining), ("leverage", num.enc o.leverage),
      ("margin", num.enc o.margin), ("seq", nat.enc o.seq), ("ts", nat.enc o.ts)]
  dec j := do
    return {
      orderId := ← str.readField "orderId" j
      userId := ← str.readField "userId" j
      side := ← side.readField "side" j
      price := ← num.readField "price" j
      quantity := ← num.readField "quantity" j
      remaining := ← num.readField "remaining" j
      leverage := ← num.readField "leverage" j
      margin := ← num.readField "margin" j
      seq := ← nat.readField "seq" j
      ts := ← nat.readField "ts" j }
  dec_enc o := by simp [readField, Json.field, Lib.Codec.dec_enc]

def priceLevel : Codec PriceLevel where
  enc l := .obj [("price", num.enc l.price), ("orders", (list restingOrder).enc l.orders)]
  dec j := do
    return {
      price := ← num.readField "price" j
      orders := ← (list restingOrder).readField "orders" j }
  dec_enc l := by simp [readField, Json.field, Lib.Codec.dec_enc]

def state : Codec SerializedState where
  enc s := .obj
    [("version", nat.enc s.version), ("market", market.enc s.market),
      ("markPrice", num.enc s.markPrice), ("lastTradePrice", num.enc s.lastTradePrice),
      ("balances", (list (pair str balance)).enc s.balances),
      ("positions", (list (pair str position)).enc s.positions),
      ("bids", (list priceLevel).enc s.bids), ("asks", (list priceLevel).enc s.asks),
      ("seq", nat.enc s.seq), ("lastInputId", streamId.enc s.lastInputId),
      ("appliedCount", nat.enc s.appliedCount),
      ("appliedCommandIds", (list str).enc s.appliedCommandIds),
      ("lastObserverSeq", int.enc s.lastObserverSeq)]
  dec j := do
    return {
      version := ← nat.readField "version" j
      market := ← market.readField "market" j
      markPrice := ← num.readField "markPrice" j
      lastTradePrice := ← num.readField "lastTradePrice" j
      balances := ← (list (pair str balance)).readField "balances" j
      positions := ← (list (pair str position)).readField "positions" j
      bids := ← (list priceLevel).readField "bids" j
      asks := ← (list priceLevel).readField "asks" j
      seq := ← nat.readField "seq" j
      lastInputId := ← streamId.readField "lastInputId" j
      appliedCount := ← nat.readField "appliedCount" j
      appliedCommandIds := ← (list str).readField "appliedCommandIds" j
      lastObserverSeq := ← int.readField "lastObserverSeq" j }
  dec_enc s := by simp [readField, Json.field, Lib.Codec.dec_enc]

end Codec

/-- `JSON.stringify(serialize(state))`. -/
def stableStringify (state : EngineState) : Json := Codec.state.enc (serialize state)

namespace Engine

/-- `Engine.fromSnapshot(JSON.parse(JSON.stringify(engine.snapshot())))`. -/
def restore (state : EngineState) : Option EngineState :=
  Codec.state.dec (Codec.state.enc (snapshot state)) >>= fromSnapshot

theorem restore_eq (state : EngineState) : restore state = fromSnapshot (snapshot state) := by
  rw [restore, Codec.state.dec_enc]
  rfl

end Engine

end Perps
