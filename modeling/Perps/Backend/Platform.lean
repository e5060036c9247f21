import Perps.Backend.Controllers
import Perps.Runtime.EngineRuntime

/-! The api, the engine's runtime and the projection as one system: any number of requests
in flight, whose commands go into the input stream, the runtime with its crashes and
redeliveries, and a projection to which the outputs come in any order, any number of times. -/

namespace Perps

open Lib

namespace Backend

structure Platform where
  db : Database
  tasks : List Task
  responses : List Response
  runtime : EngineRuntime.System

namespace Platform

def init : Platform := ⟨.empty, [], [], .init⟩

/-- What `buildEvent` draws for a command, and the id that Redis gives its entry. -/
structure Stamp where
  eventId : String
  ts : ℕ
  correlationId : String
  id : StreamId
  deriving DecidableEq, Repr

inductive Action where
  | request (request : Request)
  /-- The database comes to what the task awaits. -/
  | query (i : ℕ) (drawn : Drawn)
  /-- The task's command goes into the input stream. -/
  | send (i : ℕ) (stamp : Stamp) (reply : EngineRuntime.Reply)
  /-- The waiter of the task's command is resolved, with `none` for `null`. -/
  | resolve (i : ℕ) (result : Option EngineOutputEvent)
  /-- The database fails, or the process. -/
  | fail (i : ℕ)
  /-- An entry that no controller has put into the input stream. -/
  | observe (entry : InputEntry)
  | runtime (a : EngineRuntime.Action)
  /-- The projection is handed an entry of the output stream; `aborted` says what a failed
  `update` does to its transaction. -/
  | project (n : ℕ) (streamId : StreamId) (aborted : Bool)

/-- Take the outcome of a task's step. -/
def settle (s : Platform) (i : ℕ) : Next → Platform
  | .await task => { s with tasks := s.tasks.set i task }
  | .respond response =>
    { s with tasks := s.tasks.eraseIdx i, responses := s.responses ++ [response] }

/-- The events that do not come from the api are index prices. -/
def fromObserver (entry : InputEntry) : Bool :=
  match decodeInputEvent entry.data with
  | none => true
  | some event =>
    match event.payload with
    | .indexPriceUpdated _ => true
    | _ => false

/-- The step is an `XADD`, which is not the runtime's. -/
def appends : EngineRuntime.Action → Bool
  | .add _ => true
  | _ => false

/-- `XADD` of the event of a command; `none` in its place if the schema refuses it. -/
def enqueue (cfg : EngineRuntime.Config) (runtime : EngineRuntime.System) (cmd : CommandInput)
    (stamp : Stamp) (reply : EngineRuntime.Reply) : Option (Option EngineRuntime.System) :=
  match buildEvent cmd stamp.eventId stamp.ts stamp.correlationId with
  | none => some none
  | some event =>
    if reply.executed then
      (EngineRuntime.step cfg runtime (.add ⟨stamp.id, some event⟩)).map some
    else some (some runtime)

/-- What follows the `XADD` of a task's command. -/
def sent (task : Task) (reply : EngineRuntime.Reply) : Next :=
  match task with
  | .fireCommand _ response => .respond (if reply = .ok then response else internalError)
  | .submitCommand _ submitted =>
    if reply = .ok then .await (.reply submitted) else .respond (submitted.respond none)
  | task => .await task

def Task.command : Task → Option CommandInput
  | .fireCommand cmd _ => some cmd
  | .submitCommand cmd _ => some cmd
  | _ => none

def step (cfg : EngineRuntime.Config) (s : Platform) : Action → Option Platform
  | .request request =>
    match request.start with
    | .await task => some { s with tasks := s.tasks ++ [task] }
    | .respond response => some { s with responses := s.responses ++ [response] }
  | .query i drawn => do
    let task ← s.tasks[i]?
    let (db, next) ← advance s.db drawn task
    some ({ s with db := db }.settle i next)
  | .send i stamp reply => do
    let task ← s.tasks[i]?
    let cmd ← Task.command task
    match ← enqueue cfg s.runtime cmd stamp reply with
    | none => some (s.settle i (.respond invalidBody))
    | some runtime => some ({ s with runtime := runtime }.settle i (sent task reply))
  | .resolve i result =>
    match s.tasks[i]? with
    | some (.reply submitted) =>
      if result.all fun evt => evt.payload.eventType ∈ submitted.resolveOn then
        some (s.settle i (.respond (submitted.respond result)))
      else none
    | _ => none
  | .fail i =>
    if i < s.tasks.length then some (s.settle i (.respond internalError)) else none
  | .observe entry =>
    if fromObserver entry then
      (EngineRuntime.step cfg s.runtime (.add entry)).map fun runtime =>
        { s with runtime := runtime }
    else none
  | .runtime a =>
    if appends a then none
    else (EngineRuntime.step cfg s.runtime a).map fun runtime => { s with runtime := runtime }
  | .project n streamId aborted => do
    let evt ← s.runtime.output[n]?
    -- a transaction that throws leaves the tables as they are
    let tables := (DbWriter.projectInt aborted s.db.tables evt streamId).getD s.db.tables
    some { s with db := { s.db with tables := tables } }

/-- What a step does. -/
inductive Transition (cfg : EngineRuntime.Config) (s : Platform) : Action → Platform → Prop
  | begun {request : Request} {task : Task} (h : request.start = .await task) :
      Transition cfg s (.request request) { s with tasks := s.tasks ++ [task] }
  | refused {request : Request} {response : Response} (h : request.start = .respond response) :
      Transition cfg s (.request request) { s with responses := s.responses ++ [response] }
  | query {i : ℕ} {drawn : Drawn} {task : Task} {db : Database} {next : Next}
      (htask : s.tasks[i]? = some task) (h : advance s.db drawn task = some (db, next)) :
      Transition cfg s (.query i drawn) ({ s with db := db }.settle i next)
  | invalid (i : ℕ) (stamp : Stamp) (reply : EngineRuntime.Reply) :
      Transition cfg s (.send i stamp reply) (s.settle i (.respond invalidBody))
  | sent {i : ℕ} {stamp : Stamp} {reply : EngineRuntime.Reply} {task : Task} {cmd : CommandInput}
      {runtime : EngineRuntime.System} (htask : s.tasks[i]? = some task)
      (hcmd : Task.command task = some cmd)
      (h : enqueue cfg s.runtime cmd stamp reply = some (some runtime)) :
      Transition cfg s (.send i stamp reply)
        ({ s with runtime := runtime }.settle i (sent task reply))
  | resolve {i : ℕ} {result : Option EngineOutputEvent} {submitted : Submitted}
      (htask : s.tasks[i]? = some (.reply submitted)) :
      Transition cfg s (.resolve i result) (s.settle i (.respond (submitted.respond result)))
  | fail (i : ℕ) : Transition cfg s (.fail i) (s.settle i (.respond internalError))
  | observe {entry : InputEntry} {runtime : EngineRuntime.System}
      (hfrom : fromObserver entry = true)
      (h : EngineRuntime.step cfg s.runtime (.add entry) = some runtime) :
      Transition cfg s (.observe entry) { s with runtime := runtime }
  | runtime {a : EngineRuntime.Action} {runtime : EngineRuntime.System}
      (ha : appends a = false) (h : EngineRuntime.step cfg s.runtime a = some runtime) :
      Transition cfg s (.runtime a) { s with runtime := runtime }
  | project {n : ℕ} {streamId : StreamId} {aborted : Bool} {evt : EngineOutputEvent}
      (h : s.runtime.output[n]? = some evt) :
      Transition cfg s (.project n streamId aborted) { s with db := { s.db with
        tables := (DbWriter.projectInt aborted s.db.tables evt streamId).getD s.db.tables } }

theorem step_cases {cfg : EngineRuntime.Config} {s s' : Platform} {a : Action}
    (h : step cfg s a = some s') : Transition cfg s a s' := by
  cases a with
  | request request =>
    unfold step at h
    dsimp only at h
    split at h
    · next hstart =>
      obtain rfl := Option.some.inj h
      exact .begun hstart
    · next hstart =>
      obtain rfl := Option.some.inj h
      exact .refused hstart
  | query i drawn =>
    obtain ⟨task, htask, h⟩ := Option.bind_eq_some_iff.mp h
    obtain ⟨⟨db, next⟩, hnext, h⟩ := Option.bind_eq_some_iff.mp h
    obtain rfl := Option.some.inj h
    exact .query htask hnext
  | send i stamp reply =>
    obtain ⟨task, htask, h⟩ := Option.bind_eq_some_iff.mp h
    obtain ⟨cmd, hcmd, h⟩ := Option.bind_eq_some_iff.mp h
    obtain ⟨result, hresult, h⟩ := Option.bind_eq_some_iff.mp h
    cases result with
    | none =>
      obtain rfl := Option.some.inj h
      exact .invalid i stamp reply
    | some runtime =>
      obtain rfl := Option.some.inj h
      exact .sent htask hcmd hresult
  | resolve i result =>
    unfold step at h
    dsimp only at h
    split at h
    · next submitted htask =>
      split_ifs at h
      obtain rfl := Option.some.inj h
      exact .resolve htask
    · cases h
  | fail i =>
    unfold step at h
    dsimp only at h
    split_ifs at h
    obtain rfl := Option.some.inj h
    exact .fail i
  | observe entry =>
    unfold step at h
    dsimp only at h
    split_ifs at h with hfrom
    obtain ⟨runtime, hruntime, rfl⟩ := Option.map_eq_some_iff.mp h
    exact .observe hfrom hruntime
  | runtime a =>
    unfold step at h
    dsimp only at h
    split_ifs at h with ha
    obtain ⟨runtime, hruntime, rfl⟩ := Option.map_eq_some_iff.mp h
    exact .runtime (Bool.not_eq_true _ ▸ ha) hruntime
  | project n streamId aborted =>
    obtain ⟨evt, hevt, h⟩ := Option.bind_eq_some_iff.mp h
    obtain rfl := Option.some.inj h
    exact .project hevt

end Platform

end Backend

end Perps
