import Perps.Events.Codec
import Perps.Streams.Group
import Perps.Runtime.SnapshotStore
import Perps.Lib.Runs

/-! The engine's runtime: recovery from a snapshot and the input log, and the
consumer loop that handles one message after the other. A step ends where the
source awaits, so that a crash can come between any two of them. -/

namespace Perps

open Lib

abbrev InputLog : Type := Log (Option EngineInputEvent)

abbrev InputEntry : Type := Entry (Option EngineInputEvent)

abbrev InputMessage : Type := StreamMessage (Option EngineInputEvent)

namespace EngineRuntime

open Engine

structure Config where
  market : MarketConfig
  count : ℕ
  maxDeliveries : ℕ
  sha256 : Json → String

/-- What the consumer loop awaits. -/
inductive Work where
  | idle
  | publishing (msg : InputMessage) (outputs : List EngineOutputEvent)
  | acking (msg : InputMessage)
  | deadLettering (msg : InputMessage)
  | deadAcking (msg : InputMessage)
  deriving DecidableEq

/-- The memory of a running engine, with the rest of the batch it is going through. -/
structure Memory where
  engine : EngineState
  replayedThrough : StreamId
  batch : List InputMessage
  work : Work

structure System where
  log : InputLog
  group : Group
  output : List EngineOutputEvent
  deadLetters : List InputEntry
  files : List (String × Json)
  memory : Option Memory

def System.init : System := ⟨.empty, .create, [], [], [], none⟩

/-! Recovery -/

/-- An entry that does not decode is skipped. -/
def replayEntry (state : EngineState) (entry : InputEntry) : EngineState :=
  match decodeInputEvent entry.data with
  | some event => (process state event entry.id).1
  | none => { state with lastInputId := entry.id }

def replay (state : EngineState) (entries : List InputEntry) : EngineState :=
  entries.foldl replayEntry state

/-- `loadLatest`, and `Engine.fromSnapshot` or `Engine.create`. -/
def loadEngine (cfg : Config) (found : List (String × Json)) : Option EngineState :=
  match SnapshotStore.loadLatest cfg.sha256 found with
  | some loaded => fromSnapshot loaded.state
  | none => some (createState cfg.market)

def recover (cfg : Config) (log : InputLog) (found : List (String × Json)) : Option Memory := do
  let state ← loadEngine cfg found
  let engine := replay state (log.after state.lastInputId)
  some { engine := engine, replayedThrough := engine.lastInputId, batch := [], work := .idle }

/-! Handling a message -/

/-- The outputs are published one after the other, then the message is acked. -/
def publish (msg : InputMessage) (outputs : List EngineOutputEvent) : Work :=
  if outputs = [] then .acking msg else .publishing msg outputs

/-- The handler of `runLive`. If the entry does not decode it throws, which leaves
the message pending. -/
def handler (m : Memory) (msg : InputMessage) : Memory :=
  if compareStreamIds msg.id m.replayedThrough ≤ 0 then { m with work := .acking msg }
  else
    match decodeInputEvent msg.data with
    | none => m
    | some event =>
      let (engine, outputs) := process m.engine event msg.id
      { m with engine := engine, work := publish msg outputs }

def dispatch (cfg : Config) (m : Memory) (msg : InputMessage) : Memory :=
  if msg.deliveries > cfg.maxDeliveries then { m with work := .deadLettering msg }
  else handler m msg

/-! Steps -/

/-- A command to Redis fails, or it is executed and the reply may still be lost. -/
inductive Reply where
  | ok
  | failed
  | lost
  deriving DecidableEq

def Reply.executed (reply : Reply) : Bool := reply ≠ .failed

inductive Action where
  | add (entry : InputEntry)
  /-- `found` are the files that are still there and readable, the newest first. -/
  | recover (found : List ℕ)
  | crash
  | readNew (reply : Reply)
  | reclaim (idle : List StreamId) (reply : Reply)
  | dispatch
  | publish (reply : Reply)
  | ack (reply : Reply)
  | deadLetter (reply : Reply)
  | saveSnapshot (file : String) (savedAt : ℕ)
  deriving DecidableEq

/-- The batch that a reply brings, if it arrives. -/
def received (reply : Reply) (batch : List InputMessage) : List InputMessage :=
  if reply = .ok then batch else []

/-- The step of a running engine. An error outside the handler ends the batch. -/
def live (cfg : Config) (s : System) (m : Memory) : Action → Option System
  | .crash => some { s with memory := none }
  | .readNew reply =>
    if m.work = .idle ∧ m.batch = [] then
      let (group, batch) := s.group.readNew s.log cfg.count
      some { s with
        group := if reply.executed then group else s.group
        memory := some { m with batch := received reply batch } }
    else none
  | .reclaim idle reply =>
    if m.work = .idle ∧ m.batch = [] then
      let (group, batch) := s.group.reclaimAbandoned s.log idle cfg.count
      some { s with
        group := if reply.executed then group else s.group
        memory := some { m with batch := received reply batch } }
    else none
  | .dispatch =>
    match m.work, m.batch with
    | .idle, msg :: batch =>
      some { s with memory := some (dispatch cfg { m with batch := batch } msg) }
    | _, _ => none
  | .publish reply =>
    match m.work with
    | .publishing msg (out :: outputs) =>
      some { s with
        output := if reply.executed then s.output ++ [out] else s.output
        memory := some
          { m with work := if reply = .ok then EngineRuntime.publish msg outputs else .idle } }
    | _ => none
  | .ack reply =>
    match m.work with
    | .acking msg =>
      some { s with
        group := if reply.executed then s.group.ack msg.id else s.group
        memory := some { m with work := .idle } }
    | .deadAcking msg =>
      some { s with
        group := if reply.executed then s.group.ack msg.id else s.group
        memory := some { m with work := .idle, batch := received reply m.batch } }
    | _ => none
  | .deadLetter reply =>
    match m.work with
    | .deadLettering msg =>
      some { s with
        deadLetters := if reply.executed then s.deadLetters ++ [msg.toEntry] else s.deadLetters
        memory := some { m with
          work := if reply = .ok then .deadAcking msg else .idle
          batch := received reply m.batch } }
    | _ => none
  | .saveSnapshot file savedAt =>
    some { s with
      files := s.files ++ [(file, SnapshotStore.save cfg.sha256 m.engine m.engine savedAt)] }
  | _ => none

def step (cfg : Config) (s : System) (a : Action) : Option System :=
  match a, s.memory with
  | .add entry, _ => (s.log.add entry).map fun log => { s with log := log }
  | .recover found, none =>
    (recover cfg s.log (found.filterMap fun i => s.files[i]?)).map fun m =>
      { s with memory := some m }
  | a, some m => live cfg s m a
  | _, none => none

/-- What a step does, by the action and what the loop awaits. -/
inductive Transition (cfg : Config) (s : System) : Action → System → Prop
  | add {entry : InputEntry} {log : InputLog} (h : s.log.add entry = some log) :
      Transition cfg s (.add entry) { s with log := log }
  | recover {found : List ℕ} {m : Memory} (hdown : s.memory = none)
      (h : recover cfg s.log (found.filterMap fun i => s.files[i]?) = some m) :
      Transition cfg s (.recover found) { s with memory := some m }
  | crash {m : Memory} (hm : s.memory = some m) :
      Transition cfg s .crash { s with memory := none }
  | readNew (reply : Reply) {m : Memory} (hm : s.memory = some m) (hwork : m.work = .idle)
      (hbatch : m.batch = []) :
      Transition cfg s (.readNew reply) { s with
        group := if reply.executed then (s.group.readNew s.log cfg.count).1 else s.group
        memory := some
          { m with batch := received reply (s.group.readNew s.log cfg.count).2 } }
  | reclaim (idle : List StreamId) (reply : Reply) {m : Memory} (hm : s.memory = some m)
      (hwork : m.work = .idle) (hbatch : m.batch = []) :
      Transition cfg s (.reclaim idle reply) { s with
        group := if reply.executed then (s.group.reclaimAbandoned s.log idle cfg.count).1
          else s.group
        memory := some
          { m with batch := received reply (s.group.reclaimAbandoned s.log idle cfg.count).2 } }
  | dispatch {m : Memory} {msg : InputMessage} {batch : List InputMessage}
      (hm : s.memory = some m) (hwork : m.work = .idle) (hbatch : m.batch = msg :: batch) :
      Transition cfg s .dispatch
        { s with memory := some (dispatch cfg { m with batch := batch } msg) }
  | publish (reply : Reply) {m : Memory} {msg : InputMessage} {out : EngineOutputEvent}
      {outputs : List EngineOutputEvent} (hm : s.memory = some m)
      (hwork : m.work = .publishing msg (out :: outputs)) :
      Transition cfg s (.publish reply) { s with
        output := if reply.executed then s.output ++ [out] else s.output
        memory := some
          { m with work := if reply = .ok then EngineRuntime.publish msg outputs else .idle } }
  | ack (reply : Reply) {m : Memory} {msg : InputMessage} (hm : s.memory = some m)
      (hwork : m.work = .acking msg) :
      Transition cfg s (.ack reply) { s with
        group := if reply.executed then s.group.ack msg.id else s.group
        memory := some { m with work := .idle } }
  | deadAck (reply : Reply) {m : Memory} {msg : InputMessage} (hm : s.memory = some m)
      (hwork : m.work = .deadAcking msg) :
      Transition cfg s (.ack reply) { s with
        group := if reply.executed then s.group.ack msg.id else s.group
        memory := some { m with work := .idle, batch := received reply m.batch } }
  | deadLetter (reply : Reply) {m : Memory} {msg : InputMessage} (hm : s.memory = some m)
      (hwork : m.work = .deadLettering msg) :
      Transition cfg s (.deadLetter reply) { s with
        deadLetters := if reply.executed then s.deadLetters ++ [msg.toEntry] else s.deadLetters
        memory := some { m with
          work := if reply = .ok then .deadAcking msg else .idle
          batch := received reply m.batch } }
  | saveSnapshot (file : String) (savedAt : ℕ) {m : Memory} (hm : s.memory = some m) :
      Transition cfg s (.saveSnapshot file savedAt) { s with
        files := s.files ++ [(file, SnapshotStore.save cfg.sha256 m.engine m.engine savedAt)] }

theorem live_cases {cfg : Config} {s s' : System} {m : Memory} {a : Action}
    (hm : s.memory = some m) (h : live cfg s m a = some s') : Transition cfg s a s' := by
  cases a with
  | crash =>
    obtain rfl := Option.some.inj h
    exact .crash hm
  | readNew reply =>
    unfold live at h
    split_ifs at h with hidle
    obtain rfl := Option.some.inj h
    exact .readNew reply hm hidle.1 hidle.2
  | reclaim idle reply =>
    unfold live at h
    split_ifs at h with hidle
    obtain rfl := Option.some.inj h
    exact .reclaim idle reply hm hidle.1 hidle.2
  | dispatch =>
    unfold live at h
    dsimp only at h
    split at h
    · next msg batch hwork hbatch =>
      obtain rfl := Option.some.inj h
      exact .dispatch hm hwork hbatch
    · cases h
  | publish reply =>
    unfold live at h
    dsimp only at h
    split at h
    · next msg out outputs hwork =>
      obtain rfl := Option.some.inj h
      exact .publish reply hm hwork
    · cases h
  | ack reply =>
    unfold live at h
    dsimp only at h
    split at h
    · next msg hwork =>
      obtain rfl := Option.some.inj h
      exact .ack reply hm hwork
    · next msg hwork =>
      obtain rfl := Option.some.inj h
      exact .deadAck reply hm hwork
    · cases h
  | deadLetter reply =>
    unfold live at h
    dsimp only at h
    split at h
    · next msg hwork =>
      obtain rfl := Option.some.inj h
      exact .deadLetter reply hm hwork
    · cases h
  | saveSnapshot file savedAt =>
    obtain rfl := Option.some.inj h
    exact .saveSnapshot file savedAt hm
  | add entry => cases h
  | recover found => cases h

theorem step_cases {cfg : Config} {s s' : System} {a : Action} (h : step cfg s a = some s') :
    Transition cfg s a s' := by
  unfold step at h
  split at h
  · obtain ⟨log, hlog, rfl⟩ := Option.map_eq_some_iff.mp h
    exact .add hlog
  · next hdown =>
    obtain ⟨m, hm, rfl⟩ := Option.map_eq_some_iff.mp h
    exact .recover hdown hm
  · next hm => exact live_cases hm h
  · cases h

/-- Whatever a step does is enabled. -/
theorem step_of_transition {cfg : Config} {s s' : System} {a : Action}
    (h : Transition cfg s a s') : step cfg s a = some s' := by
  cases h with
  | add hlog =>
    unfold step
    dsimp only
    rw [hlog]
    rfl
  | recover hdown hrec =>
    unfold step
    rw [hdown]
    dsimp only
    rw [hrec]
    rfl
  | crash hm =>
    unfold step
    rw [hm]
    rfl
  | saveSnapshot file savedAt hm => simp only [step, live, hm]
  | readNew reply hm hwork hbatch | reclaim idle reply hm hwork hbatch =>
    unfold step
    rw [hm]
    exact if_pos ⟨hwork, hbatch⟩
  | dispatch hm hwork hbatch =>
    unfold step live
    rw [hm]
    dsimp only
    rw [hwork, hbatch]
  | publish reply hm hwork | ack reply hm hwork | deadAck reply hm hwork
  | deadLetter reply hm hwork =>
    unfold step live
    rw [hm]
    dsimp only
    rw [hwork]

/-- The message that is next, if the handler goes on to process its event. -/
def processing (cfg : Config) (m : Memory) : Option (InputMessage × EngineInputEvent) :=
  match m.batch with
  | [] => none
  | msg :: _ =>
    if msg.deliveries ≤ cfg.maxDeliveries ∧ m.replayedThrough < msg.id then
      (decodeInputEvent msg.data).map fun e => (msg, e)
    else none

/-- What the loop does with a message. -/
theorem dispatch_cases (cfg : Config) {m : Memory} {msg : InputMessage} {batch : List InputMessage}
    (hbatch : m.batch = msg :: batch) :
    (cfg.maxDeliveries < msg.deliveries ∧ processing cfg m = none ∧
      dispatch cfg { m with batch := batch } msg =
        { m with batch := batch, work := .deadLettering msg }) ∨
    (msg.id ≤ m.replayedThrough ∧ processing cfg m = none ∧
      dispatch cfg { m with batch := batch } msg =
        { m with batch := batch, work := .acking msg }) ∨
    (decodeInputEvent msg.data = none ∧ processing cfg m = none ∧
      dispatch cfg { m with batch := batch } msg = { m with batch := batch }) ∨
    ∃ e, decodeInputEvent msg.data = some e ∧ processing cfg m = some (msg, e) ∧
      dispatch cfg { m with batch := batch } msg = { m with
        engine := (process m.engine e msg.id).1
        batch := batch
        work := publish msg (process m.engine e msg.id).2 } := by
  unfold dispatch handler processing
  simp only [compareStreamIds_le_zero, hbatch]
  by_cases hmax : msg.deliveries > cfg.maxDeliveries
  · exact Or.inl ⟨hmax, if_neg fun h => not_lt.mpr h.1 hmax, if_pos hmax⟩
  · rw [if_neg hmax]
    by_cases hid : msg.id ≤ m.replayedThrough
    · exact Or.inr (Or.inl ⟨hid, if_neg fun h => not_lt.mpr hid h.2, if_pos hid⟩)
    · rw [if_neg hid, if_pos ⟨not_lt.mp hmax, not_le.mp hid⟩]
      cases he : decodeInputEvent msg.data with
      | none => exact Or.inr (Or.inr (Or.inl ⟨rfl, rfl, rfl⟩))
      | some e => exact Or.inr (Or.inr (Or.inr ⟨e, rfl, rfl, rfl⟩))

/-! The messages at hand -/

def Work.message : Work → Option InputMessage
  | .idle => none
  | .publishing msg _ => some msg
  | .acking msg => some msg
  | .deadLettering msg => some msg
  | .deadAcking msg => some msg

theorem publish_message (msg : InputMessage) (outputs : List EngineOutputEvent) :
    (publish msg outputs).message = some msg := by
  unfold publish
  split_ifs <;> rfl

theorem received_subset (reply : Reply) (batch : List InputMessage) :
    received reply batch ⊆ batch := by
  unfold received
  split_ifs
  · exact List.Subset.refl _
  · exact List.nil_subset _

/-- The message that is being handled and the rest of the batch are of the log. -/
def FromLog (s : System) : Prop :=
  ∀ m ∈ s.memory, ∀ msg, msg ∈ m.batch ∨ m.work.message = some msg → msg.toEntry ∈ s.log.entries

theorem fromLog_init : FromLog .init := fun _ hm => nomatch hm

theorem fromLog_step {cfg : Config} {s s' : System} {a : Action} (h : step cfg s a = some s')
    (hs : FromLog s) : FromLog s' := by
  have hidle (msg : InputMessage) : Work.idle.message ≠ some msg := fun hmsg => nomatch hmsg
  cases step_cases h with
  | add hlog => exact fun m hm msg hmsg => (Log.mem_of_add hlog).mpr (Or.inl (hs m hm msg hmsg))
  | recover hdown hrec =>
    intro m hm msg hmsg
    obtain ⟨t, -, ht⟩ := Option.bind_eq_some_iff.mp hrec
    obtain rfl := Option.some.inj hm
    obtain rfl := Option.some.inj ht
    exact (hmsg.elim (List.not_mem_nil) (hidle msg)).elim
  | crash => exact fun m hm => nomatch hm
  | readNew reply hm hwork =>
    intro m' hm' msg hmsg
    obtain rfl := Option.some.inj hm'
    rcases hmsg with hmsg | hmsg
    · exact (Log.mem_after.mp (Group.mem_readNew (received_subset _ _ hmsg))).1
    · exact hs _ hm msg (Or.inr hmsg)
  | reclaim idle reply hm hwork =>
    intro m' hm' msg hmsg
    obtain rfl := Option.some.inj hm'
    rcases hmsg with hmsg | hmsg
    · exact Group.mem_reclaimAbandoned (received_subset _ _ hmsg)
    · exact hs _ hm msg (Or.inr hmsg)
  | @dispatch m msg batch hm hwork hbatch =>
    intro m' hm' msg' hmsg
    obtain rfl := Option.some.inj hm'
    have hmem : msg' ∈ batch ∨ some msg = some msg' := by
      rcases dispatch_cases cfg hbatch with
        ⟨-, -, heq⟩ | ⟨-, -, heq⟩ | ⟨-, -, heq⟩ | ⟨e, -, -, heq⟩
      · rw [heq] at hmsg
        exact hmsg
      · rw [heq] at hmsg
        exact hmsg
      · rw [heq] at hmsg
        exact Or.inl (hmsg.resolve_right (by rw [hwork]; exact hidle msg'))
      · rw [heq, publish_message] at hmsg
        exact hmsg
    refine hs m hm msg' (Or.inl ?_)
    rw [hbatch]
    rcases hmem with hmem | hmem
    · exact List.mem_cons_of_mem _ hmem
    · obtain rfl := Option.some.inj hmem
      exact List.mem_cons_self
  | publish reply hm hwork =>
    intro m' hm' msg' hmsg
    obtain rfl := Option.some.inj hm'
    refine hs _ hm msg' (hmsg.imp_right fun hmsg => ?_)
    dsimp only at hmsg
    rw [hwork]
    split_ifs at hmsg
    · rw [publish_message] at hmsg
      exact hmsg
    · exact absurd hmsg (hidle msg')
  | ack reply hm hwork =>
    intro m' hm' msg' hmsg
    obtain rfl := Option.some.inj hm'
    exact hs _ hm msg' (Or.inl (hmsg.resolve_right (hidle msg')))
  | deadAck reply hm hwork =>
    intro m' hm' msg' hmsg
    obtain rfl := Option.some.inj hm'
    exact hs _ hm msg' (Or.inl (received_subset _ _ (hmsg.resolve_right (hidle msg'))))
  | deadLetter reply hm hwork =>
    intro m' hm' msg' hmsg
    obtain rfl := Option.some.inj hm'
    refine hs _ hm msg' (hmsg.imp (fun hmsg => received_subset _ _ hmsg) fun hmsg => ?_)
    dsimp only at hmsg
    rw [hwork]
    split_ifs at hmsg
    · exact hmsg
    · exact absurd hmsg (hidle msg')
  | saveSnapshot file savedAt hm => exact fun m' hm' msg' hmsg => hs m' hm' msg' hmsg

end EngineRuntime

end Perps
