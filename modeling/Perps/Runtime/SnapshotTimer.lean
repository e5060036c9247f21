import Perps.Lib.Runs
import Perps.Runtime.EngineRuntime

/-! When the runtime saves its snapshots: after `snapshotEveryEvents` handled events, on a
timer if any have been handled, and when it stops. A save takes the state that its call
finds, and ends at some later step. -/

namespace Perps

open Lib Engine

namespace SnapshotTimer

/-- What the handler of `runLive` awaits. -/
inductive Handler where
  | idle
  | publishing
  /-- Its own save, of this state. -/
  | saving (state : EngineState)

structure Runtime where
  engine : EngineState
  replayedThrough : StreamId
  dirtySinceSnapshot : ℕ
  handler : Handler
  /-- The saves of the timer and of `stop` that have not ended. -/
  saves : List EngineState
  /-- The states that have been saved. -/
  saved : List EngineState

/-- The runtime goes live with the engine that it has recovered. -/
def runLive (engine : EngineState) : Runtime := ⟨engine, engine.lastInputId, 0, .idle, [], []⟩

namespace Runtime

/-- `saveSnapshot`, called by the timer or by `stop`. -/
def saveSnapshot (r : Runtime) : Runtime := { r with saves := r.saves ++ [r.engine] }

/-- The handler up to its first await. -/
def handle (r : Runtime) (msg : InputMessage) : Runtime :=
  if compareStreamIds msg.id r.replayedThrough ≤ 0 then r
  else
    match decodeInputEvent msg.data with
    | none => r
    | some event => { r with engine := (process r.engine event msg.id).1, handler := .publishing }

/-- The handler after the last output. -/
def published (snapshotEveryEvents : ℕ) (r : Runtime) : Runtime :=
  { r with
    dirtySinceSnapshot := r.dirtySinceSnapshot + 1
    handler := if r.dirtySinceSnapshot + 1 ≥ snapshotEveryEvents then .saving r.engine else .idle }

/-- A save of `state` ends; if it fails that is only logged. -/
def ended (r : Runtime) (state : EngineState) (ok : Bool) : Runtime :=
  if ok then { r with dirtySinceSnapshot := 0, saved := r.saved ++ [state] } else r

/-- The states of all saves that have not ended. -/
def inFlight (r : Runtime) : List EngineState :=
  match r.handler with
  | .saving state => state :: r.saves
  | _ => r.saves

/-- The event that has changed the engine and is not counted yet. -/
def uncounted (r : Runtime) : ℕ :=
  match r.handler with
  | .publishing => 1
  | _ => 0

end Runtime

inductive Action where
  | handle (msg : InputMessage)
  /-- All outputs are published, or one of them fails. -/
  | publish (ok : Bool)
  | timer
  | stop
  /-- The handler's save ends. -/
  | saved (ok : Bool)
  /-- Another save ends. -/
  | timerSaved (i : ℕ) (ok : Bool)

def step (snapshotEveryEvents : ℕ) (r : Runtime) : Action → Option Runtime
  | .handle msg =>
    match r.handler with
    | .idle => some (r.handle msg)
    | _ => none
  | .publish ok =>
    match r.handler with
    | .publishing =>
      some (if ok then r.published snapshotEveryEvents else { r with handler := .idle })
    | _ => none
  | .timer => some (if r.dirtySinceSnapshot > 0 then r.saveSnapshot else r)
  | .stop => some r.saveSnapshot
  | .saved ok =>
    match r.handler with
    | .saving state => some { r.ended state ok with handler := .idle }
    | _ => none
  | .timerSaved i ok =>
    r.saves[i]?.map fun state => { r.ended state ok with saves := r.saves.eraseIdx i }

/-- What a step does. -/
inductive Transition (snapshotEveryEvents : ℕ) (r : Runtime) : Action → Runtime → Prop
  | handle (msg : InputMessage) (hidle : r.handler = .idle) :
      Transition snapshotEveryEvents r (.handle msg) (r.handle msg)
  | published (hpublishing : r.handler = .publishing) :
      Transition snapshotEveryEvents r (.publish true) (r.published snapshotEveryEvents)
  | failed (hpublishing : r.handler = .publishing) :
      Transition snapshotEveryEvents r (.publish false) { r with handler := .idle }
  | timer (hdirty : 0 < r.dirtySinceSnapshot) :
      Transition snapshotEveryEvents r .timer r.saveSnapshot
  | clean (hclean : r.dirtySinceSnapshot = 0) : Transition snapshotEveryEvents r .timer r
  | stop : Transition snapshotEveryEvents r .stop r.saveSnapshot
  | saved (ok : Bool) {state : EngineState} (hsaving : r.handler = .saving state) :
      Transition snapshotEveryEvents r (.saved ok) { r.ended state ok with handler := .idle }
  | timerSaved (i : ℕ) (ok : Bool) {state : EngineState} (hstate : r.saves[i]? = some state) :
      Transition snapshotEveryEvents r (.timerSaved i ok)
        { r.ended state ok with saves := r.saves.eraseIdx i }

theorem step_cases {snapshotEveryEvents : ℕ} {r r' : Runtime} {a : Action}
    (h : step snapshotEveryEvents r a = some r') : Transition snapshotEveryEvents r a r' := by
  cases a with
  | handle msg =>
    cases hhandler : r.handler with
    | idle =>
      simp only [step, hhandler, Option.some.injEq] at h
      exact h ▸ .handle msg hhandler
    | publishing => simp only [step, hhandler, reduceCtorEq] at h
    | saving state => simp only [step, hhandler, reduceCtorEq] at h
  | publish ok =>
    cases hhandler : r.handler with
    | idle => simp only [step, hhandler, reduceCtorEq] at h
    | publishing =>
      simp only [step, hhandler, Option.some.injEq] at h
      cases ok with
      | true => exact h ▸ .published hhandler
      | false => exact h ▸ .failed hhandler
    | saving state => simp only [step, hhandler, reduceCtorEq] at h
  | timer =>
    obtain rfl := Option.some.inj h
    split_ifs with hdirty
    · exact .timer hdirty
    · exact .clean (Nat.eq_zero_of_not_pos hdirty)
  | stop =>
    obtain rfl := Option.some.inj h
    exact .stop
  | saved ok =>
    cases hhandler : r.handler with
    | idle => simp only [step, hhandler, reduceCtorEq] at h
    | publishing => simp only [step, hhandler, reduceCtorEq] at h
    | saving state =>
      simp only [step, hhandler, Option.some.injEq] at h
      exact h ▸ .saved ok hhandler
  | timerSaved i ok =>
    obtain ⟨state, hstate, rfl⟩ := Option.map_eq_some_iff.mp h
    exact .timerSaved i ok hstate

end SnapshotTimer

end Perps
