import Perps.Events.Input

/-! The index price observer: it turns the ticks of the exchange into input events of
the engine. What it remembers between two ticks is lost when it restarts. -/

namespace Perps

structure MarkPriceTick where
  /-- The exchange's event time, in milliseconds. -/
  eventTime : ℕ
  symbol : String
  indexPrice : ℚ
  deriving DecidableEq, Repr

namespace Observer

structure Config where
  symbol : String
  minIntervalMs : ℤ

/-- The local variables of `main`. -/
structure Memory where
  lastEmittedAt : ℕ
  lastSeq : ℕ
  deriving DecidableEq, Repr

def Memory.start : Memory := ⟨0, 0⟩

/-- Too little time has passed since the last event. -/
def throttled (cfg : Config) (m : Memory) (now : ℕ) : Bool :=
  decide ((now : ℤ) - m.lastEmittedAt < cfg.minIntervalMs)

/-- The event time, nudged forward on ties. -/
def observerSeq (m : Memory) (tick : MarkPriceTick) : ℕ :=
  if tick.eventTime > m.lastSeq then tick.eventTime else m.lastSeq + 1

/-- The callback of `connectBinance`, at the local time `now`, with the id of the event if
there is to be one. -/
def onTick (cfg : Config) (m : Memory) (now : ℕ) (eventId : String) (tick : MarkPriceTick) :
    Memory × Option EngineInputEvent :=
  if throttled cfg m now then (m, none)
  else
    let observerSeq := observerSeq m tick
    ({ lastEmittedAt := now, lastSeq := observerSeq }, some
      { eventId := eventId
        ts := now
        source := "index-price-observer"
        schemaVersion := SCHEMA_VERSION
        correlationId := none
        causationId := none
        commandId := none
        payload := .indexPriceUpdated
          { symbol := cfg.symbol
            price := tick.indexPrice
            observerSeq := observerSeq
            sourceTs := tick.eventTime } })

inductive Action where
  | tick (now : ℕ) (eventId : String) (tick : MarkPriceTick)
  | restart
  deriving DecidableEq, Repr

/-- The memory, and every event that has been emitted so far. -/
structure History where
  memory : Memory
  emitted : List EngineInputEvent

def History.start : History := ⟨.start, []⟩

def step (cfg : Config) (h : History) : Action → History
  | .tick now eventId tick =>
    let (memory, event) := onTick cfg h.memory now eventId tick
    { memory := memory, emitted := h.emitted ++ event.toList }
  | .restart => { h with memory := .start }

def observe (cfg : Config) (h : History) (actions : List Action) : History :=
  actions.foldl (step cfg) h

/-- The event times of the ticks, throttled ones included. -/
def eventTimes (actions : List Action) : List ℕ :=
  actions.filterMap fun
    | .tick _ _ tick => some tick.eventTime
    | .restart => none

/-- The sequence numbers of the index prices among the events. -/
def observerSeqs (events : List EngineInputEvent) : List ℕ :=
  events.filterMap fun e =>
    match e.payload with
    | .indexPriceUpdated p => some p.observerSeq
    | _ => none

end Observer

end Perps
