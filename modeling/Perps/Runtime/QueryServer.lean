import Perps.Events.Query
import Perps.Runtime.EngineRuntime

/-! The query server, a loop beside the consumer loop of the engine. It answers from the
state that the engine has when it comes to the query. -/

namespace Perps

open Lib

/-- The data of a reply that is not null. -/
inductive QueryData where
  | balance (b : Balance)
  | position (p : Position)
  | orderbook (book : BookSnapshot)

structure EngineQueryReply where
  correlationId : String
  ok : Bool
  data : Option QueryData

/-- A query as it is in the stream: `none` if there is no JSON value under `data`. -/
abbrev QueryLog : Type := Log (Option Json)

abbrev ReplyLog : Type := Log EngineQueryReply

def EngineQuery.data (s : EngineState) : EngineQuery → Option QueryData
  | .getBalance _ userId => some (.balance ((s.balances.get? userId).getD ⟨0, 0, 0⟩))
  | .getPosition _ userId => (s.positions.get? userId).map .position
  | .getOrderbook _ _ levels => some (.orderbook (snapshot s levels))

def parseQuery (data : Option Json) : Option EngineQuery := data >>= Wire.engineQuerySchema.parse

/-- A bad query has no reply. -/
def answerQuery (s : EngineState) (data : Option Json) : Option EngineQueryReply :=
  (parseQuery data).map fun q => { correlationId := q.correlationId, ok := true, data := q.data s }

/-- The reader of a stream that starts at `"$"`. -/
structure Tail where
  /-- There is none yet while it is `"$"`. -/
  lastId : Option StreamId
  /-- Where the `XREAD` that the reader awaits starts. -/
  call : Option StreamId
  deriving DecidableEq

namespace Tail

variable {α : Type}

def start : Tail := ⟨none, none⟩

/-- A new `XREAD` from `"$"` passes over the whole log. -/
def read (t : Tail) (log : Log α) : Tail := { t with call := some (t.lastId.getD log.lastId) }

/-- What the `XREAD` brings. -/
def entries (t : Tail) (log : Log α) (count : ℕ) : List (Entry α) :=
  match t.call with
  | none => []
  | some id => (log.after id).take count

end Tail

structure QueryServer where
  tail : Tail
  batch : List (Entry (Option Json))
  /-- The reply whose `XADD` the loop awaits. -/
  replying : Option EngineQueryReply

namespace QueryServer

def start : QueryServer := ⟨.start, [], none⟩

inductive Action where
  /-- The loop calls `XREAD`. -/
  | read
  | receive
  /-- Nothing has come for as long as `XREAD` blocks. -/
  | timeout
  /-- The next query of the batch. -/
  | answer
  | reply (id : StreamId) (result : EngineRuntime.Reply)
  /-- `XREAD` fails. -/
  | fail

/-- A step of the loop, and the replies after it. An error ends the loop. -/
def step (engine : EngineState) (queries : QueryLog) (replies : ReplyLog) (s : QueryServer) :
    Action → Option (Option QueryServer × ReplyLog)
  | .read =>
    if s.tail.call = none ∧ s.batch = [] ∧ s.replying.isNone then
      some (some { s with tail := s.tail.read queries }, replies)
    else none
  | .receive =>
    match s.tail.entries queries 20 with
    | [] => none
    | m :: batch => some (some { s with tail := { s.tail with call := none }, batch := m :: batch }, replies)
  | .timeout =>
    match s.tail.call with
    | none => none
    | some id =>
      if queries.after id = [] then some (some { s with tail := { s.tail with call := none } }, replies)
      else none
  | .answer =>
    match s.batch, s.replying with
    | m :: batch, none =>
      some (some { s with
        tail := { s.tail with lastId := some m.id }
        batch := batch
        replying := answerQuery engine m.data }, replies)
    | _, _ => none
  | .reply id result =>
    match s.replying with
    | none => none
    | some reply =>
      (if result.executed then replies.add ⟨id, reply⟩ else some replies).map fun replies =>
        (if result = .ok then some { s with replying := none } else none, replies)
  | .fail => if s.tail.call = none then none else some (none, replies)

/-- What a step does. -/
inductive Transition (engine : EngineState) (queries : QueryLog) (replies : ReplyLog)
    (s : QueryServer) : Action → Option QueryServer → ReplyLog → Prop
  | read (hcall : s.tail.call = none) (hbatch : s.batch = []) (hreplying : s.replying = none) :
      Transition engine queries replies s .read
        (some { s with tail := s.tail.read queries }) replies
  | receive {id : StreamId} (hcall : s.tail.call = some id) (hnew : (queries.after id).take 20 ≠ []) :
      Transition engine queries replies s .receive (some { s with
        tail := { s.tail with call := none }
        batch := (queries.after id).take 20 }) replies
  | timeout {id : StreamId} (hcall : s.tail.call = some id) (hnone : queries.after id = []) :
      Transition engine queries replies s .timeout
        (some { s with tail := { s.tail with call := none } }) replies
  | answer {m : Entry (Option Json)} {batch : List (Entry (Option Json))}
      (hbatch : s.batch = m :: batch) (hreplying : s.replying = none) :
      Transition engine queries replies s .answer (some { s with
        tail := { s.tail with lastId := some m.id }
        batch := batch
        replying := answerQuery engine m.data }) replies
  | replied {id : StreamId} {reply : EngineQueryReply} {after : ReplyLog}
      (hreplying : s.replying = some reply) (hadd : replies.add ⟨id, reply⟩ = some after) :
      Transition engine queries replies s (.reply id .ok)
        (some { s with replying := none }) after
  | lost {id : StreamId} {reply : EngineQueryReply} {after : ReplyLog}
      (hreplying : s.replying = some reply) (hadd : replies.add ⟨id, reply⟩ = some after) :
      Transition engine queries replies s (.reply id .lost) none after
  | failed {id : StreamId} : Transition engine queries replies s (.reply id .failed) none replies
  | fail : Transition engine queries replies s .fail none replies

theorem step_cases {engine : EngineState} {queries : QueryLog} {replies replies' : ReplyLog}
    {s : QueryServer} {s' : Option QueryServer} {a : Action}
    (h : step engine queries replies s a = some (s', replies')) :
    Transition engine queries replies s a s' replies' := by
  cases a with
  | read =>
    unfold step at h
    dsimp only at h
    split_ifs at h with hidle
    obtain ⟨rfl, rfl⟩ := Prod.mk.inj (Option.some.inj h)
    exact .read hidle.1 hidle.2.1 (Option.isNone_iff_eq_none.mp hidle.2.2)
  | receive =>
    unfold step at h
    dsimp only at h
    split at h
    · cases h
    · next m batch hentries =>
      obtain ⟨rfl, rfl⟩ := Prod.mk.inj (Option.some.inj h)
      unfold Tail.entries at hentries
      split at hentries
      · cases hentries
      · next id hcall =>
        rw [← hentries]
        exact .receive hcall (by rw [hentries]; exact List.cons_ne_nil m batch)
  | timeout =>
    unfold step at h
    dsimp only at h
    split at h
    · cases h
    · next id hcall =>
      split_ifs at h with hnone
      obtain ⟨rfl, rfl⟩ := Prod.mk.inj (Option.some.inj h)
      exact .timeout hcall hnone
  | answer =>
    unfold step at h
    dsimp only at h
    split at h
    · next m batch hbatch hreplying =>
      obtain ⟨rfl, rfl⟩ := Prod.mk.inj (Option.some.inj h)
      exact .answer hbatch hreplying
    · cases h
  | reply id result =>
    unfold step at h
    dsimp only at h
    split at h
    · cases h
    · next reply hreplying =>
      obtain ⟨after, hafter, hrest⟩ := Option.map_eq_some_iff.mp h
      obtain ⟨rfl, rfl⟩ := Prod.mk.inj hrest
      cases result with
      | ok => exact .replied hreplying hafter
      | lost => exact .lost hreplying hafter
      | failed =>
        obtain rfl := Option.some.inj hafter
        exact .failed
  | fail =>
    unfold step at h
    dsimp only at h
    split_ifs at h
    obtain ⟨rfl, rfl⟩ := Prod.mk.inj (Option.some.inj h)
    exact .fail

end QueryServer

end Perps
