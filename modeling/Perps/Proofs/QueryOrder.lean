import Perps.Backend.QueryClient
import Perps.Runtime.Recovery

/-! The query server answers queries in the order of the stream, none twice whatever
crashes, and none is left out while the loop goes on. -/

namespace Perps

open Lib

/-- The id under which an entry is answered, if it is. -/
def queryId (x : Entry (Option Json)) : Option String :=
  (parseQuery x.data).map EngineQuery.correlationId

theorem answerQuery_correlationId (s : EngineState) (x : Entry (Option Json)) :
    (answerQuery s x.data).map EngineQueryReply.correlationId = queryId x := by
  unfold answerQuery queryId
  rw [Option.map_map]
  rfl

theorem filterMap_queryId (x : Entry (Option Json)) : [x].filterMap queryId = (queryId x).toList := by
  cases h : queryId x <;> simp [h]

namespace Log

variable {α : Type} {log : Log α}

theorem filter_after_add {x : Entry α} {log' : Log α} (h : log.add x = some log') {id : StreamId}
    (hid : log.Marks id) (lo : StreamId) :
    (log'.after lo).filter (fun y => y.id ≤ id) = (log.after lo).filter fun y => y.id ≤ id := by
  have hlt := hid.lt_of_add h
  unfold after
  rw [(add_eq h).1, List.filter_append, List.filter_append, List.filter_filter,
    List.filter_filter]
  simp [not_le.mpr hlt]

/-- The entries up to the next one after an id. -/
theorem filter_after_next {lo id : StreamId} (h : lo ≤ id) {m : Entry α} {rest : List (Entry α)}
    (hnext : log.after id = m :: rest) :
    (log.after lo).filter (fun x => x.id ≤ m.id) = (log.after lo).filter (fun x => x.id ≤ id) ++ [m] := by
  have hm : m ∈ log.after id := hnext ▸ List.mem_cons_self
  have hlt : id < m.id := (mem_after.mp hm).2
  have hsorted : (m :: rest).Pairwise fun x y => x.id < y.id :=
    hnext ▸ log.sorted.sublist List.filter_sublist
  have hrest : rest.filter (fun x => decide (x.id ≤ m.id)) = [] :=
    List.filter_eq_nil_iff.mpr fun x hx => by
      simpa using (List.pairwise_cons.mp hsorted).1 x hx
  have hold : ((log.after lo).filter fun x => x.id ≤ id).filter (fun x => x.id ≤ m.id) =
      (log.after lo).filter fun x => x.id ≤ id :=
    List.filter_eq_self.mpr fun x hx => by
      have hle : x.id ≤ id := by simpa using (List.mem_filter.mp hx).2
      simpa using hle.trans hlt.le
  conv_lhs => rw [log.after_eq_append h, hnext, List.filter_append, hold]
  rw [List.filter_cons, if_pos (by simp), hrest]

end Log

namespace Queries

variable {ι : Type}

/-- The ids of the replies in the stream and of the one on its way there. -/
def System.sent (s : System ι) : List String :=
  s.replies.entries.map (fun x => x.data.correlationId) ++
    ((s.server.bind QueryServer.replying).map EngineQueryReply.correlationId).toList

/-- How far the loop has come: the queries before it are done with. -/
structure Reads (queries : QueryLog) (done rest : List (Entry (Option Json))) (server : QueryServer) :
    Prop where
  batch : server.batch <+: rest
  idle : server.tail.call ≠ none → server.batch = []
  call : ∀ id ∈ server.tail.call, ∀ x ∈ done, x.id ≤ id
  lastId : ∀ id ∈ server.tail.lastId, queries.Marks id ∧ server.batch <+: queries.after id ∧
    (∀ other ∈ server.tail.call, other = id) ∧ (server.batch = [] → ∀ x ∈ done, x.id ≤ id)

/-- What is sent answers queries the loop is past, in their order. -/
def InOrder (s : System ι) : Prop :=
  ∃ done rest, s.queries.entries = done ++ rest ∧ s.sent.Sublist (done.filterMap queryId) ∧
    ∀ server ∈ s.server, Reads s.queries done rest server

theorem InOrder.init : InOrder (.init : System ι) :=
  ⟨[], [], rfl, .slnil, fun _ hserver => nomatch hserver⟩

section Step

variable {s t : System ι}

/-- No query is given a second reply. -/
theorem InOrder.ended (hs : InOrder s) (hqueries : t.queries = s.queries)
    (hsent : t.sent.Sublist s.sent) (hserver : ∀ server ∈ t.server, server = .start) : InOrder t := by
  obtain ⟨done, rest, hsplit, hsub, -⟩ := hs
  refine ⟨done, rest, hqueries ▸ hsplit, hsent.trans hsub, fun server hmem => ?_⟩
  obtain rfl := hserver server hmem
  exact ⟨List.nil_prefix, fun _ => rfl, fun id hid => (nomatch hid), fun id hid => (nomatch hid)⟩

theorem InOrder.add (hs : InOrder s) (hserver : t.server = s.server) (hreplies : t.replies = s.replies)
    {x : Entry (Option Json)} (hadd : s.queries.add x = some t.queries) : InOrder t := by
  obtain ⟨done, rest, hsplit, hsub, hreads⟩ := hs
  have hsent : t.sent = s.sent := by
    unfold System.sent
    rw [hserver, hreplies]
  refine ⟨done, rest ++ [x], ?_, hsent ▸ hsub, fun server hmem => ?_⟩
  · rw [(Log.add_eq hadd).1, hsplit, List.append_assoc]
  · have hold := hreads server (hserver ▸ hmem)
    refine ⟨hold.batch.trans (List.prefix_append _ _), hold.idle, hold.call, fun id hid => ?_⟩
    obtain ⟨hmarks, hbatch, hcall, hdone⟩ := hold.lastId id hid
    refine ⟨hmarks.add hadd, ?_, hcall, hdone⟩
    rw [Log.after_add hadd hmarks]
    exact hbatch.trans (List.prefix_append _ _)

theorem InOrder.server (hs : InOrder s) {engine : EngineState} {a : QueryServer.Action}
    {server : QueryServer} {server' : Option QueryServer} {replies : ReplyLog}
    (hserver : s.server = some server)
    (h : QueryServer.Transition engine s.queries s.replies server a server' replies) :
    InOrder { s with server := server', replies := replies } := by
  obtain ⟨done, rest, hsplit, hsub, hreads⟩ := id hs
  have hold := hreads server hserver
  have hmarks : ∀ id ∈ server.tail.lastId, s.queries.Marks id := fun id hid => (hold.lastId id hid).1
  have hsent : s.sent = s.replies.entries.map (fun x => x.data.correlationId) ++
      (server.replying.map EngineQueryReply.correlationId).toList := by
    unfold System.sent
    rw [hserver]
    rfl
  have hadded {id : StreamId} {reply : EngineQueryReply} (hreplying : server.replying = some reply)
      (hadd : s.replies.add ⟨id, reply⟩ = some replies) :
      replies.entries.map (fun x => x.data.correlationId) = s.sent := by
    rw [hsent, hreplying, (Log.add_eq hadd).1, List.map_append]
    rfl
  cases h with
  | read hcall hempty hreplying =>
    refine ⟨done, rest, hsplit, ?_, fun sv hsv => ?_⟩
    · rw [hsent] at hsub
      exact hsub
    · obtain rfl := Option.some.inj hsv
      refine ⟨hold.batch, fun _ => hempty, fun id hid x hx => ?_, fun id hid => ?_⟩
      · obtain rfl := Option.some.inj hid
        cases hlast : server.tail.lastId with
        | none => exact Log.le_lastId (hsplit ▸ List.mem_append_left _ hx)
        | some last => exact (hold.lastId last hlast).2.2.2 hempty x hx
      · obtain ⟨hmarks, hbatch, -, hdone⟩ := hold.lastId id hid
        refine ⟨hmarks, hbatch, fun other hother => ?_, hdone⟩
        have hid : server.tail.lastId = some id := hid
        obtain rfl := Option.some.inj hother
        rw [hid]
        rfl
  | @receive id hcall hnew =>
    refine ⟨s.queries.through id, s.queries.after id, (s.queries.through_append_after id).symm, ?_,
      fun sv hsv => ?_⟩
    · have hdone : done.Sublist (s.queries.through id) := by
        unfold Log.through
        rw [hsplit, List.filter_append]
        rw [List.filter_eq_self.mpr fun x hx => by simpa using hold.call id hcall x hx]
        exact List.sublist_append_left _ _
      rw [hsent] at hsub
      exact hsub.trans (hdone.filterMap _)
    · obtain rfl := Option.some.inj hsv
      refine ⟨List.take_prefix _ _, fun hne => absurd rfl hne, fun id hid => (nomatch hid),
        fun last hlast => ?_⟩
      obtain ⟨hmarks, -, heq, -⟩ := hold.lastId last hlast
      obtain rfl := heq id hcall
      exact ⟨hmarks, List.take_prefix _ _, fun _ hother => (nomatch hother),
        fun hnil => absurd hnil hnew⟩
  | timeout hcall hnone =>
    refine ⟨done, rest, hsplit, ?_, fun sv hsv => ?_⟩
    · rw [hsent] at hsub
      exact hsub
    · obtain rfl := Option.some.inj hsv
      refine ⟨hold.batch, fun hne => absurd rfl hne, fun id hid => (nomatch hid), fun id hid => ?_⟩
      obtain ⟨hmarks, hbatch, -, hdone⟩ := hold.lastId id hid
      exact ⟨hmarks, hbatch, fun _ hother => (nomatch hother), hdone⟩
  | @answer x batch hnext hreplying =>
    have hprefix := hold.batch
    rw [hnext] at hprefix
    obtain ⟨later, rfl⟩ := hprefix
    obtain ⟨hafter, hlt⟩ := Log.after_of_split hsplit
    have hx : x ∈ s.queries.entries := by
      rw [hsplit]
      exact List.mem_append_right _ List.mem_cons_self
    have hle : ∀ y ∈ done ++ [x], y.id ≤ x.id := by
      intro y hy
      rcases List.mem_append.mp hy with hy | hy
      · exact (hlt y hy).le
      · rw [List.mem_singleton.mp hy]
    have hcall : server.tail.call = none := by
      by_contra hne
      exact absurd (hnext.symm.trans (hold.idle hne)) (List.cons_ne_nil _ _)
    refine ⟨done ++ [x], batch ++ later, by rw [hsplit]; simp, ?_, fun sv hsv => ?_⟩
    · rw [hsent, hreplying, Option.map_none, Option.toList_none, List.append_nil] at hsub
      rw [List.filterMap_append]
      unfold System.sent
      dsimp only
      rw [Option.bind_some, answerQuery_correlationId, filterMap_queryId]
      exact hsub.append (List.Sublist.refl _)
    · obtain rfl := Option.some.inj hsv
      refine ⟨List.prefix_append _ _, fun hne => absurd hcall hne, fun id hid => ?_, fun id hid => ?_⟩
      · rw [hcall] at hid
        cases hid
      · obtain rfl := Option.some.inj hid
        refine ⟨Or.inr ⟨x, hx, rfl⟩, hafter ▸ List.prefix_append _ _, fun other hother => ?_,
          fun _ => hle⟩
        rw [hcall] at hother
        cases hother
  | replied hreplying hlog =>
    refine ⟨done, rest, hsplit, ?_, fun sv hsv => ?_⟩
    · have heq := hadded hreplying hlog
      unfold System.sent
      rw [heq]
      simpa using hsub
    · obtain rfl := Option.some.inj hsv
      exact ⟨hold.batch, hold.idle, hold.call, hold.lastId⟩
  | lost hreplying hlog =>
    refine hs.ended rfl ?_ fun sv hsv => nomatch hsv
    have heq := hadded hreplying hlog
    show (replies.entries.map _ ++ []).Sublist _
    rw [List.append_nil, heq]
  | failed =>
    refine hs.ended rfl ?_ fun sv hsv => nomatch hsv
    rw [hsent]
    simp [System.sent]
  | fail =>
    refine hs.ended rfl ?_ fun sv hsv => nomatch hsv
    rw [hsent]
    simp [System.sent]

/-- What a step of the loop sends, if the loop goes on. -/
theorem sent_server {engine : EngineState} {a : QueryServer.Action} {server w : QueryServer}
    {replies : ReplyLog} (hserver : s.server = some server)
    (h : QueryServer.Transition engine s.queries s.replies server a (some w) replies) :
    (w.tail.lastId = server.tail.lastId ∧
      System.sent { s with server := some w, replies := replies } = s.sent) ∨
    ∃ x batch, server.batch = x :: batch ∧ w.tail.lastId = some x.id ∧
      System.sent { s with server := some w, replies := replies } = s.sent ++ [x].filterMap queryId := by
  have hsent : s.sent = s.replies.entries.map (fun x => x.data.correlationId) ++
      (server.replying.map EngineQueryReply.correlationId).toList := by
    unfold System.sent
    rw [hserver]
    rfl
  rw [hsent]
  cases h with
  | read hcall hempty hreplying => exact Or.inl ⟨rfl, rfl⟩
  | receive hcall hnew => exact Or.inl ⟨rfl, rfl⟩
  | timeout hcall hnone => exact Or.inl ⟨rfl, rfl⟩
  | @answer x batch hnext hreplying =>
    refine Or.inr ⟨x, batch, hnext, rfl, ?_⟩
    rw [hreplying, filterMap_queryId, ← answerQuery_correlationId engine x, Option.map_none,
      Option.toList_none, List.append_nil]
    rfl
  | replied hreplying hlog =>
    refine Or.inl ⟨rfl, ?_⟩
    unfold System.sent
    rw [(Log.add_eq hlog).1, hreplying, List.map_append]
    exact List.append_nil _

theorem inOrder_step [DecidableEq ι] {cfg : EngineRuntime.Config} {a : Action ι}
    (h : step cfg s a = some t) (hs : InOrder s) : InOrder t := by
  cases step_cases h with
  | @runtime a runtime hruntime =>
    cases a
    case recover =>
      exact hs.ended rfl (by simp [System.sent, serverAfter, QueryServer.start]) fun server hmem =>
        (Option.some.inj hmem).symm
    case crash => exact hs.ended rfl (by simp [System.sent, serverAfter]) fun server hmem => nomatch hmem
    all_goals exact hs
  | server hserver hm hstep => exact hs.server hserver hstep
  | client hstep =>
    rcases hstep.added with rfl | ⟨x, hx, id, hadd⟩
    · exact hs
    · exact hs.add rfl rfl hadd

/-- The query server runs only with an engine. -/
def Served (s : System ι) : Prop := s.server ≠ none → s.runtime.memory ≠ none

theorem memory_step {cfg : EngineRuntime.Config} {s t : EngineRuntime.System} {a : EngineRuntime.Action}
    (h : EngineRuntime.step cfg s a = some t) (ha : a ≠ .crash) (hs : s.memory ≠ none) :
    t.memory ≠ none ∧ ∀ found, a ≠ .recover found := by
  cases EngineRuntime.step_cases h with
  | add hlog => exact ⟨hs, fun _ hne => nomatch hne⟩
  | recover hdown => exact absurd hdown hs
  | crash => exact absurd rfl ha
  | saveSnapshot file savedAt hm => exact ⟨hs, fun _ hne => nomatch hne⟩
  | readNew | reclaim | dispatch | publish | ack | deadAck | deadLetter =>
    exact ⟨Option.some_ne_none _, fun _ hne => nomatch hne⟩

theorem served_step [DecidableEq ι] {cfg : EngineRuntime.Config} {a : Action ι}
    (h : step cfg s a = some t) (hs : Served s) : Served t := by
  cases step_cases h with
  | @runtime a runtime hruntime =>
    intro hserver
    by_cases hcrash : a = .crash
    · subst hcrash
      exact absurd rfl hserver
    · cases hm : s.runtime.memory with
      | none =>
        -- a recovery, as there is no server without an engine
        cases EngineRuntime.step_cases hruntime with
        | add hlog => exact absurd hm (hs hserver)
        | recover hdown hrec => exact Option.some_ne_none _
        | crash => exact absurd rfl hcrash
        | saveSnapshot file savedAt hm' => exact absurd hm (by rw [hm']; exact Option.some_ne_none _)
        | readNew | reclaim | dispatch | publish | ack | deadAck | deadLetter =>
          exact Option.some_ne_none _
      | some m => exact (memory_step hruntime hcrash (by rw [hm]; exact Option.some_ne_none m)).1
  | server hserver hm hstep => exact fun _ => by rw [hm]; exact Option.some_ne_none _
  | client hstep => exact hs

/-- From `s` to `t` the loop has sent a reply to each query it has read, and nothing else. -/
def Continues (s t : System ι) : Prop :=
  t.runtime.memory ≠ none ∧ ∀ v ∈ s.server, ∀ i ∈ v.tail.lastId, ∀ w ∈ t.server,
    ∃ j ∈ w.tail.lastId, i ≤ j ∧
      t.sent = s.sent ++ ((t.queries.after i).filter fun x => x.id ≤ j).filterMap queryId

theorem Continues.refl (hm : s.runtime.memory ≠ none) : Continues s s := by
  refine ⟨hm, fun v hv i hi w hw => ?_⟩
  obtain rfl := Option.mem_unique hv hw
  refine ⟨i, hi, le_rfl, ?_⟩
  have hnone : (s.queries.after i).filter (fun x => decide (x.id ≤ i)) = [] :=
    List.filter_eq_nil_iff.mpr fun x hx => by simpa using (Log.mem_after.mp hx).2
  rw [hnone, List.filterMap_nil, List.append_nil]

theorem Continues.step [DecidableEq ι] {cfg : EngineRuntime.Config} {u : System ι} {a : Action ι}
    (hs : Continues s t) (ht : InOrder t) (ha : a ≠ .runtime .crash) (h : step cfg t a = some u) :
    Continues s u := by
  obtain ⟨hm, hsent⟩ := hs
  obtain ⟨done, rest, hsplit, -, hreads⟩ := ht
  cases step_cases h with
  | @runtime a runtime hruntime =>
    have hcrash : a ≠ .crash := fun heq => ha (congrArg _ heq)
    obtain ⟨hm', hrecover⟩ := memory_step hruntime hcrash hm
    refine ⟨hm', ?_⟩
    cases a
    case recover found => exact absurd rfl (hrecover found)
    case crash => exact absurd rfl hcrash
    all_goals exact hsent
  | @server a server m server' replies hserver hmem hstep =>
    refine ⟨hm, fun v hv i hi w hw => ?_⟩
    obtain rfl := Option.mem_def.mp hw
    obtain ⟨j, hj, hle, heq⟩ := hsent v hv i hi server hserver
    rcases sent_server hserver hstep with ⟨hlast, hsame⟩ | ⟨x, batch, hnext, hlast, hmore⟩
    · exact ⟨j, hlast ▸ hj, hle, hsame.trans heq⟩
    · obtain ⟨-, hbatch, -, -⟩ := (hreads server hserver).lastId j hj
      rw [hnext] at hbatch
      obtain ⟨later, hafter⟩ := hbatch
      have hx : x ∈ t.queries.after j := hafter ▸ List.mem_cons_self
      refine ⟨x.id, hlast, hle.trans (Log.mem_after.mp hx).2.le, ?_⟩
      show System.sent _ = s.sent ++ ((t.queries.after i).filter fun y => y.id ≤ x.id).filterMap queryId
      rw [hmore, heq, Log.filter_after_next hle hafter.symm, List.filterMap_append, List.append_assoc]
  | @client c a client queries hstep =>
    refine ⟨hm, fun v hv i hi w hw => ?_⟩
    obtain ⟨j, hj, hle, heq⟩ := hsent v hv i hi w hw
    refine ⟨j, hj, hle, ?_⟩
    rcases hstep.added with rfl | ⟨x, hx, id, hadd⟩
    · exact heq
    · obtain ⟨hmarks, -, -, -⟩ := (hreads w hw).lastId j hj
      show System.sent t = s.sent ++ ((queries.after i).filter fun y => y.id ≤ j).filterMap queryId
      rw [heq, Log.filter_after_add hadd hmarks]

end Step

section Run

variable [DecidableEq ι] {cfg : EngineRuntime.Config} {s t : System ι}

theorem continues_run (hm : s.runtime.memory ≠ none) (hs : InOrder s) {as : List (Action ι)}
    (hcrash : ∀ a ∈ as, a ≠ .runtime .crash) (hrun : runs (step cfg) s as = some t) :
    Continues s t := by
  have h : InOrder t ∧ Continues s t := by
    refine runs_history (I := fun as t => (∀ a ∈ as, a ≠ Action.runtime .crash) → InOrder t ∧ Continues s t)
      (fun _ => ⟨hs, .refl hm⟩) (fun as a t u _ hstep ht hcrash => ?_) hrun hcrash
    obtain ⟨hin, hcont⟩ := ht fun b hb => hcrash b (List.mem_append_left _ hb)
    have ha := hcrash a (List.mem_append_right _ (List.mem_singleton_self a))
    exact ⟨inOrder_step hstep hin, hcont.step hin ha hstep⟩
  exact h.2

/-- Replies come in the order of the queries and no query has two of them, in any run;
and between any two moments of an engine that does not crash, the loop has answered every
query that it has come past, if it is still there. -/
theorem queries_answered_in_order (cfg : EngineRuntime.Config) {as bs : List (Action ι)}
    (hrun : runs (step cfg) System.init as = some s) (hmore : runs (step cfg) s bs = some t) :
    (t.replies.entries.map fun x => x.data.correlationId).Sublist
        (t.queries.entries.filterMap queryId) ∧
      ((∀ a ∈ bs, a ≠ .runtime .crash) → ∀ v ∈ s.server, ∀ w ∈ t.server,
        ∀ i ∈ v.tail.lastId, ∀ j ∈ w.tail.lastId,
          t.sent = s.sent ++ ((t.queries.after i).filter fun x => x.id ≤ j).filterMap queryId) := by
  have hinv {as : List (Action ι)} {s t : System ι} (hs : InOrder s ∧ Served s)
      (hrun : runs (step cfg) s as = some t) : InOrder t ∧ Served t :=
    runs_history (I := fun _ t => InOrder t ∧ Served t) hs
      (fun _ _ _ _ _ h hs => ⟨inOrder_step h hs.1, served_step h hs.2⟩) hrun
  have hs := hinv ⟨.init, fun hne => absurd rfl hne⟩ hrun
  refine ⟨?_, fun hcrash v hv w hw i hi j hj => ?_⟩
  · obtain ⟨⟨done, rest, hsplit, hsub, -⟩, -⟩ := hinv hs hmore
    rw [hsplit, List.filterMap_append]
    exact ((List.sublist_append_left _ _).trans hsub).trans (List.sublist_append_left _ _)
  · have hm : s.runtime.memory ≠ none := hs.2 fun hnone => by
      rw [hnone] at hv
      cases hv
    obtain ⟨j', hj', -, heq⟩ := (continues_run hm hs.1 hcrash hmore).2 v hv i hi w hw
    obtain rfl := Option.mem_unique hj hj'
    exact heq

end Run

end Queries

namespace Fixture

def firstQuery : List (Queries.Action Unit) :=
  [.runtime (.recover []), .server .read, .client () (.ask "q1" (.getPosition "u")),
    .client () (.enqueue "q1" ⟨1, 0⟩ .ok), .server .receive, .server .answer]

/-- The first of two more queries asks for no levels, which is refused. -/
def moreQueries : List (Queries.Action Unit) :=
  [.client () (.ask "q2" (.getOrderbook "BTCUSDT" (some 0))),
    .client () (.ask "q3" (.getOrderbook "BTCUSDT" none)), .client () (.enqueue "q2" ⟨2, 0⟩ .ok),
    .client () (.enqueue "q3" ⟨3, 0⟩ .ok), .server (.reply ⟨4, 0⟩ .ok), .server .read,
    .server .receive, .server .answer, .server .answer]

end Fixture

namespace Queries

open Fixture in
theorem queries_answered_in_order_refused :
    ∃ s t, runs (step CONFIG) System.init firstQuery = some s ∧
      runs (step CONFIG) s moreQueries = some t ∧ t.sent = ["q1", "q3"] ∧
      (t.replies.entries.map fun x => x.data.correlationId).Sublist
        (t.queries.entries.filterMap queryId) ∧
      ∀ v ∈ s.server, ∀ w ∈ t.server, ∀ i ∈ v.tail.lastId, ∀ j ∈ w.tail.lastId,
        t.sent = s.sent ++ ((t.queries.after i).filter fun x => x.id ≤ j).filterMap queryId := by
  have hfacts : ∃ t ∈ (runs (step CONFIG) System.init firstQuery).bind fun s =>
      runs (step CONFIG) s moreQueries, t.sent = ["q1", "q3"] := by decide +kernel
  obtain ⟨t, ht, hsent⟩ := hfacts
  obtain ⟨s, hs, hmore⟩ := Option.bind_eq_some_iff.mp ht
  obtain ⟨hsub, hall⟩ := queries_answered_in_order CONFIG hs hmore
  refine ⟨s, t, hs, hmore, hsent, hsub, hall fun a ha => ?_⟩
  rintro rfl
  simp [moreQueries] at ha

end Queries

end Perps
