import Perps.Domain.Effects
import Perps.Domain.Snapshot

/-! The states an engine can be in: it starts from `createState`, processes
events that satisfy `P`, and may at any time be rebuilt from its snapshot. -/

namespace Perps

open Lib

namespace Engine

inductive Reachable (P : EngineInputEvent → Prop) (market : MarketConfig) : EngineState → Prop
  | init : Reachable P market (createState market)
  | event {s : EngineState} (h : Reachable P market s) (e : EngineInputEvent) (he : P e)
    (id : StreamId) : Reachable P market (process s e id).1
  | restored {s t : EngineState} (h : Reachable P market s) (ht : restore s = some t) :
    Reachable P market t

theorem reachable_run {P : EngineInputEvent → Prop} {market : MarketConfig} {s : EngineState}
    (h : Reachable P market s) {evs : List (EngineInputEvent × StreamId)} (hevs : RunOf P evs) :
    Reachable P market (run s evs).1 := by
  induction evs generalizing s with
  | nil => exact h
  | cons x xs ih =>
    exact ih (.event h x.1 (hevs x List.mem_cons_self) x.2)
      (fun y hy => hevs y (List.mem_cons_of_mem _ hy))

theorem Reachable.mono {P Q : EngineInputEvent → Prop} (hPQ : ∀ e, P e → Q e) {market : MarketConfig}
    {s : EngineState} (h : Reachable P market s) : Reachable Q market s := by
  induction h with
  | init => exact .init
  | event _ e he id ih => exact .event ih e (hPQ e he) id
  | restored _ ht ih => exact .restored ih ht

/-- `t` and `s` agree on everything but the order of their maps. -/
structure SameUpToOrder (s t : EngineState) : Prop where
  rest : t = { s with balances := t.balances, positions := t.positions }
  balances : ∀ u, t.balances.get? u = s.balances.get? u
  positions : ∀ u, t.positions.get? u = s.positions.get? u

theorem SameUpToOrder.bal {s t : EngineState} (h : SameUpToOrder s t) (u : String) :
    t.bal u = s.bal u := by
  unfold EngineState.bal
  rw [h.balances]

theorem SameUpToOrder.pos {s t : EngineState} (h : SameUpToOrder s t) (u : String) :
    t.pos u = s.pos u := by
  unfold EngineState.pos
  rw [h.positions, h.rest]

/-- Rebuilding from a snapshot succeeds, and changes at most the order of the maps. -/
theorem restore_same (s : EngineState) : ∃ t, restore s = some t ∧ SameUpToOrder s t := by
  rw [restore_eq]
  refine ⟨{ s with
    balances := OrdMap.ofEntries (s.balances.sorted stringLe)
    positions := OrdMap.ofEntries (s.positions.sorted stringLe) }, ?_, rfl, ?_, ?_⟩
  · unfold fromSnapshot deserialize snapshot serialize
    rw [if_neg (not_not.mpr rfl)]
  · exact fun u => OrdMap.get?_ofEntries_sorted s.balances u
  · exact fun u => OrdMap.get?_ofEntries_sorted s.positions u

theorem restored_same {s t : EngineState} (ht : restore s = some t) : SameUpToOrder s t := by
  obtain ⟨t', ht', hsame⟩ := restore_same s
  obtain rfl := Option.some.inj (ht.symm.trans ht')
  exact hsame

/-- A property of the core that every effect preserves, and that does not see
the order of the maps, holds in every reachable state. -/
theorem reachable_invariant {P : EngineInputEvent → Prop} {market : MarketConfig}
    {I : EngineState → Prop} (hP : ∀ e, P e → engineInputEventSchema e)
    (hinit : I (createState market)) (hcore : ∀ s t, SameCore s t → I s → I t)
    (hstep : ∀ s e t, P e → Effect s e t → I s → I t)
    (hrestore : ∀ s t, SameUpToOrder s t → I s → I t) {s : EngineState}
    (h : Reachable P market s) : I s := by
  induction h with
  | init => exact hinit
  | @event s h e he id ih =>
    by_cases ha : alreadyApplied s e = true
    · rw [process_applied ha]
      exact hcore _ _ (sameCore_lastInputId _ _) ih
    · exact hcore _ _ (process_new ha _) (hstep _ _ _ he (dispatch_effect s e (hP e he)) ih)
  | restored _ ht ih => exact hrestore _ _ (restored_same ht) ih

end Engine

/-! The market and the event builders of `engine.test.ts`. -/

namespace Fixture

def MARKET : MarketConfig := ⟨"BTCUSDT", 20, 100, 0.005⟩

def evt (commandId : Option String) (payload : InputPayload) : EngineInputEvent where
  eventId := "in"
  ts := 1700000000000
  source := "test"
  schemaVersion := SCHEMA_VERSION
  correlationId := none
  causationId := none
  commandId := commandId
  payload := payload

def user (userId : String) (openingBalance : ℚ) : EngineInputEvent :=
  evt none (.userCreated ⟨userId, openingBalance⟩)

def place (userId orderId : String) (side : Side) (orderType : OrderType)
    (price quantity leverage margin : ℚ) : EngineInputEvent :=
  evt ("cmd_" ++ orderId)
    (.orderPlace ⟨userId, orderId, side, orderType, quantity, price, leverage, margin⟩)

/-- The entries `1-0`, `2-0`, ... of a stream. -/
def numbered (events : List EngineInputEvent) : List (EngineInputEvent × StreamId) :=
  events.mapIdx fun i e => (e, ⟨i + 1, 0⟩)

end Fixture

end Perps
