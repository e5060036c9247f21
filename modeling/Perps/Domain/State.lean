import Perps.Domain.Money
import Perps.Lib.OrdMap
import Perps.Lib.Utf16
import Perps.Streams.Ids
import Perps.Events.Output

/-! The engine state, and its serialization: the balance and position maps are
written out in the order of their keys, and read back in that order. -/

namespace Perps

open Lib

structure Balance where
  total : ℚ
  free : ℚ
  locked : ℚ
  deriving DecidableEq, Repr

structure RestingOrder where
  orderId : String
  userId : String
  side : Side
  price : ℚ
  quantity : ℚ
  remaining : ℚ
  leverage : ℚ
  /-- Collateral still locked for the unfilled remainder. -/
  margin : ℚ
  /-- Engine sequence at insertion. -/
  seq : ℕ
  ts : ℕ
  deriving DecidableEq, Repr

structure PriceLevel where
  price : ℚ
  orders : List RestingOrder
  deriving DecidableEq, Repr

structure Position where
  userId : String
  /-- Long above zero, short below, flat at zero. -/
  size : ℚ
  entryPrice : ℚ
  margin : ℚ
  leverage : ℚ
  liqPrice : ℚ
  realizedPnl : ℚ
  unrealizedPnl : ℚ
  markPrice : ℚ
  deriving DecidableEq, Repr

structure MarketConfig where
  symbol : String
  maxLeverage : ℚ
  minMargin : ℚ
  maintenanceMarginRate : ℚ
  deriving DecidableEq, Repr

structure EngineState where
  market : MarketConfig
  markPrice : ℚ
  lastTradePrice : ℚ
  balances : OrdMap String Balance
  positions : OrdMap String Position
  bids : List PriceLevel
  asks : List PriceLevel
  seq : ℕ
  lastInputId : StreamId
  appliedCount : ℕ
  /-- Newest last. -/
  appliedCommandIds : List String
  lastObserverSeq : ℤ
  deriving DecidableEq

def createState (market : MarketConfig) : EngineState where
  market := market
  markPrice := 0
  lastTradePrice := 0
  balances := OrdMap.empty
  positions := OrdMap.empty
  bids := []
  asks := []
  seq := 0
  lastInputId := StreamId.zero
  appliedCount := 0
  appliedCommandIds := []
  lastObserverSeq := -1

structure SerializedState where
  version : ℕ
  market : MarketConfig
  markPrice : ℚ
  lastTradePrice : ℚ
  balances : List (String × Balance)
  positions : List (String × Position)
  bids : List PriceLevel
  asks : List PriceLevel
  seq : ℕ
  lastInputId : StreamId
  appliedCount : ℕ
  appliedCommandIds : List String
  lastObserverSeq : ℤ
  deriving DecidableEq

def STATE_VERSION : ℕ := 1

def serialize (state : EngineState) : SerializedState where
  version := STATE_VERSION
  market := state.market
  markPrice := state.markPrice
  lastTradePrice := state.lastTradePrice
  balances := state.balances.sorted stringLe
  positions := state.positions.sorted stringLe
  bids := state.bids
  asks := state.asks
  seq := state.seq
  lastInputId := state.lastInputId
  appliedCount := state.appliedCount
  appliedCommandIds := state.appliedCommandIds
  lastObserverSeq := state.lastObserverSeq

/-- A snapshot of another version is refused. -/
def deserialize (s : SerializedState) : Option EngineState :=
  if s.version ≠ STATE_VERSION then none
  else some
    { market := s.market
      markPrice := s.markPrice
      lastTradePrice := s.lastTradePrice
      balances := OrdMap.ofEntries s.balances
      positions := OrdMap.ofEntries s.positions
      bids := s.bids
      asks := s.asks
      seq := s.seq
      lastInputId := s.lastInputId
      appliedCount := s.appliedCount
      appliedCommandIds := s.appliedCommandIds
      lastObserverSeq := s.lastObserverSeq }

end Perps
