import Perps.Runtime.QueryServer

/-! The api's side of a live read: `engineQuery` registers a waiter and puts the query
into the stream, `tailQueryReplies` resolves the waiter with the reply. With the engine and
any number of api processes it makes up one system. -/

namespace Perps

open Lib

structure QueryClient where
  /-- The keys of the map of waiters. -/
  queryWaiters : Finset String
  /-- The queries whose `XADD` has not been executed yet. -/
  sending : List (String × Json)
  /-- The loop of `tailQueryReplies`, if it has not ended. -/
  tail : Option Tail
  /-- The promises that are resolved, with `none` for `null`. -/
  answers : List (String × Option QueryData)

namespace QueryClient

def start : QueryClient := ⟨∅, [], some .start, []⟩

/-- Remove the waiter and resolve its promise. -/
def resolve (c : QueryClient) (correlationId : String) (answer : Option QueryData) : QueryClient :=
  { c with
    queryWaiters := c.queryWaiters.erase correlationId
    answers := c.answers ++ [(correlationId, answer)] }

/-- A promise that is already resolved does not change. -/
def giveUp (c : QueryClient) (correlationId : String) : QueryClient :=
  if correlationId ∈ c.queryWaiters then c.resolve correlationId none else c

/-- The body of the loop in `tailQueryReplies`. -/
def tailMessage (c : QueryClient) (m : Entry EngineQueryReply) : QueryClient :=
  if m.data.correlationId ∈ c.queryWaiters then
    c.resolve m.data.correlationId (if m.data.ok then m.data.data else none)
  else c

inductive Action where
  /-- A call of `engineQuery`. -/
  | ask (correlationId : String) (q : QueryInput)
  /-- Redis comes to the `XADD` of a query. -/
  | enqueue (correlationId : String) (id : StreamId) (result : EngineRuntime.Reply)
  | timeout (correlationId : String)
  /-- `tailQueryReplies` calls `XREAD`. -/
  | read
  | receive
  /-- Nothing has come for as long as `XREAD` blocks. -/
  | elapse
  /-- `XREAD` fails. -/
  | fail

/-- A step of an api process, and the queries after it. -/
def step (queries : QueryLog) (replies : ReplyLog) (c : QueryClient) :
    Action → Option (QueryClient × QueryLog)
  | .ask correlationId q =>
    some ({ c with
      queryWaiters := insert correlationId c.queryWaiters
      sending := c.sending ++ [(correlationId, (q.toObject correlationId).stringify)] }, queries)
  | .enqueue correlationId id result =>
    match c.sending.find? fun x => x.1 = correlationId with
    | none => none
    | some (_, data) =>
      let sent := { c with sending := c.sending.eraseP fun x => x.1 = correlationId }
      (if result.executed then queries.add ⟨id, some data⟩ else some queries).map fun queries =>
        (if result = .ok then sent else sent.giveUp correlationId, queries)
  | .timeout correlationId => some (c.giveUp correlationId, queries)
  | .read =>
    match c.tail with
    | some ⟨lastId, none⟩ => some ({ c with tail := some (Tail.read ⟨lastId, none⟩ replies) }, queries)
    | _ => none
  | .receive =>
    match c.tail with
    | none => none
    | some tail =>
      match (tail.entries replies 100).getLast? with
      | none => none
      | some last =>
        some ((tail.entries replies 100).foldl tailMessage
          { c with tail := some ⟨some last.id, none⟩ }, queries)
  | .elapse =>
    match c.tail with
    | some ⟨lastId, some id⟩ =>
      if replies.after id = [] then some ({ c with tail := some ⟨lastId, none⟩ }, queries) else none
    | _ => none
  | .fail =>
    match c.tail with
    | some ⟨_, some _⟩ => some ({ c with tail := none }, queries)
    | _ => none

/-- What a step does, up to where the reader stands. -/
inductive Transition (queries : QueryLog) (replies : ReplyLog) (c : QueryClient) :
    Action → QueryClient → QueryLog → Prop
  | ask (correlationId : String) (q : QueryInput) :
      Transition queries replies c (.ask correlationId q) { c with
        queryWaiters := insert correlationId c.queryWaiters
        sending := c.sending ++ [(correlationId, (q.toObject correlationId).stringify)] } queries
  | sent {correlationId : String} {id : StreamId} {result : EngineRuntime.Reply} {data : Json}
      {sent : QueryClient} {after : QueryLog} (hmem : (correlationId, data) ∈ c.sending)
      (hsending : sent.sending ⊆ c.sending)
      (hafter : queries.add ⟨id, some data⟩ = some after ∨ after = queries)
      (hsent : (∃ sending, sent = { c with sending := sending }) ∨
        ∃ sending, sent = giveUp { c with sending := sending } correlationId) :
      Transition queries replies c (.enqueue correlationId id result) sent after
  | timeout (correlationId : String) :
      Transition queries replies c (.timeout correlationId) (c.giveUp correlationId) queries
  | moved {a : Action} (ha : a = .read ∨ a = .elapse ∨ a = .fail) (tail : Option Tail) :
      Transition queries replies c a { c with tail := tail } queries
  | receive {id : StreamId} (tail : Option Tail) :
      Transition queries replies c .receive
        (((replies.after id).take 100).foldl tailMessage { c with tail := tail }) queries

theorem giveUp_sending (c : QueryClient) (correlationId : String) :
    (c.giveUp correlationId).sending = c.sending := by
  unfold giveUp
  split_ifs <;> rfl

theorem step_cases {queries queries' : QueryLog} {replies : ReplyLog} {c c' : QueryClient}
    {a : Action} (h : c.step queries replies a = some (c', queries')) :
    Transition queries replies c a c' queries' := by
  cases a with
  | ask correlationId q =>
    obtain ⟨rfl, rfl⟩ := Prod.mk.inj (Option.some.inj h)
    exact .ask correlationId q
  | enqueue correlationId id result =>
    unfold step at h
    dsimp only at h
    split at h
    · cases h
    · next key data hfind =>
      obtain rfl : key = correlationId := by simpa using List.find?_some hfind
      obtain ⟨after, hafter, hrest⟩ := Option.map_eq_some_iff.mp h
      obtain ⟨rfl, rfl⟩ := Prod.mk.inj hrest
      refine .sent (List.mem_of_find?_eq_some hfind) ?_ ?_ ?_
      · split_ifs
        · exact List.eraseP_subset
        · rw [giveUp_sending]
          exact List.eraseP_subset
      · split_ifs at hafter
        · exact Or.inl hafter
        · exact Or.inr (Option.some.inj hafter).symm
      · split_ifs
        · exact Or.inl ⟨_, rfl⟩
        · exact Or.inr ⟨_, rfl⟩
  | timeout correlationId =>
    obtain ⟨rfl, rfl⟩ := Prod.mk.inj (Option.some.inj h)
    exact .timeout correlationId
  | read =>
    unfold step at h
    dsimp only at h
    split at h
    · obtain ⟨rfl, rfl⟩ := Prod.mk.inj (Option.some.inj h)
      exact .moved (Or.inl rfl) _
    · cases h
  | receive =>
    unfold step at h
    dsimp only at h
    split at h
    · cases h
    · next tail htail =>
      split at h
      · cases h
      · next last hlast =>
        obtain ⟨rfl, rfl⟩ := Prod.mk.inj (Option.some.inj h)
        unfold Tail.entries at hlast ⊢
        cases hcall : tail.call with
        | none =>
          rw [hcall] at hlast
          cases hlast
        | some id => exact .receive _
  | elapse =>
    unfold step at h
    dsimp only at h
    split at h
    · split_ifs at h
      obtain ⟨rfl, rfl⟩ := Prod.mk.inj (Option.some.inj h)
      exact .moved (Or.inr (Or.inl rfl)) _
    · cases h
  | fail =>
    unfold step at h
    dsimp only at h
    split at h
    · obtain ⟨rfl, rfl⟩ := Prod.mk.inj (Option.some.inj h)
      exact .moved (Or.inr (Or.inr rfl)) _
    · cases h

/-- What a step puts into the stream was to be sent. -/
theorem Transition.added {queries queries' : QueryLog} {replies : ReplyLog} {c c' : QueryClient}
    {a : Action} (h : Transition queries replies c a c' queries') :
    queries' = queries ∨ ∃ x ∈ c.sending, ∃ id, queries.add ⟨id, some x.2⟩ = some queries' := by
  cases h with
  | ask corr q => exact Or.inl rfl
  | sent hmem hsending hafter hsent => exact hafter.symm.imp_right fun hadd => ⟨_, hmem, _, hadd⟩
  | timeout corr => exact Or.inl rfl
  | moved ha tail => exact Or.inl rfl
  | receive tail => exact Or.inl rfl

end QueryClient

namespace Queries

variable {ι : Type}

structure System (ι : Type) where
  runtime : EngineRuntime.System
  queries : QueryLog
  replies : ReplyLog
  /-- The loop of the query server, if it has started and not ended. -/
  server : Option QueryServer
  clients : ι → QueryClient

def System.init : System ι := ⟨.init, .empty, .empty, none, fun _ => .start⟩

inductive Action (ι : Type) where
  | runtime (a : EngineRuntime.Action)
  | server (a : QueryServer.Action)
  | client (c : ι) (a : QueryClient.Action)

/-- `runLive` starts the query server after recovery, and it dies with the engine. -/
def serverAfter (server : Option QueryServer) : EngineRuntime.Action → Option QueryServer
  | .recover _ => some .start
  | .crash => none
  | _ => server

variable [DecidableEq ι]

def step (cfg : EngineRuntime.Config) (s : System ι) : Action ι → Option (System ι)
  | .runtime a =>
    (EngineRuntime.step cfg s.runtime a).map fun runtime =>
      { s with runtime := runtime, server := serverAfter s.server a }
  | .server a =>
    match s.server, s.runtime.memory with
    | some server, some m =>
      (server.step m.engine s.queries s.replies a).map fun x =>
        { s with server := x.1, replies := x.2 }
    | _, _ => none
  | .client c a =>
    ((s.clients c).step s.queries s.replies a).map fun x =>
      { s with clients := Function.update s.clients c x.1, queries := x.2 }

/-- What a step does. -/
inductive Transition (cfg : EngineRuntime.Config) (s : System ι) : Action ι → System ι → Prop
  | runtime {a : EngineRuntime.Action} {runtime : EngineRuntime.System}
      (h : EngineRuntime.step cfg s.runtime a = some runtime) :
      Transition cfg s (.runtime a) { s with runtime := runtime, server := serverAfter s.server a }
  | server {a : QueryServer.Action} {server : QueryServer} {m : EngineRuntime.Memory}
      {server' : Option QueryServer} {replies : ReplyLog} (hserver : s.server = some server)
      (hm : s.runtime.memory = some m)
      (h : QueryServer.Transition m.engine s.queries s.replies server a server' replies) :
      Transition cfg s (.server a) { s with server := server', replies := replies }
  | client {c : ι} {a : QueryClient.Action} {client : QueryClient} {queries : QueryLog}
      (h : QueryClient.Transition s.queries s.replies (s.clients c) a client queries) :
      Transition cfg s (.client c a)
        { s with clients := Function.update s.clients c client, queries := queries }

theorem step_cases {cfg : EngineRuntime.Config} {s s' : System ι} {a : Action ι}
    (h : step cfg s a = some s') : Transition cfg s a s' := by
  cases a with
  | runtime a =>
    obtain ⟨runtime, hruntime, rfl⟩ := Option.map_eq_some_iff.mp h
    exact .runtime hruntime
  | server a =>
    unfold step at h
    dsimp only at h
    split at h
    · next server m hserver hm =>
      obtain ⟨⟨server', replies⟩, hstep, rfl⟩ := Option.map_eq_some_iff.mp h
      exact .server hserver hm (QueryServer.step_cases hstep)
    · cases h
  | client c a =>
    obtain ⟨⟨client, queries⟩, hstep, rfl⟩ := Option.map_eq_some_iff.mp h
    exact .client (QueryClient.step_cases hstep)

end Queries

end Perps
