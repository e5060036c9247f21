import Perps.Backend.QueryClient
import Perps.Runtime.Recovery

/-! Live reads are linearizable: an answer is read from the state of the running engine
at one moment between the call and the answer, whatever the api processes, the query
server, the consumer loop and crashes do meanwhile. -/

namespace Perps

open Lib

/-- What the engine has on it. -/
def QueryInput.answer (s : EngineState) : QueryInput → Option QueryData
  | .getBalance userId => some (.balance ((s.balances.get? userId).getD ⟨0, 0, 0⟩))
  | .getPosition userId => (s.positions.get? userId).map .position
  | .getOrderbook _ levels => some (.orderbook (snapshot s ((levels.map fun n => n.num.toNat).getD 20)))

theorem QueryInput.answer_eq {correlationId : String} {q : QueryInput} {query : EngineQuery}
    (h : q.query correlationId = some query) (s : EngineState) : query.data s = q.answer s := by
  cases q with
  | getBalance userId =>
    obtain rfl := Option.some.inj h
    rfl
  | getPosition userId =>
    obtain rfl := Option.some.inj h
    rfl
  | getOrderbook symbol levels =>
    obtain ⟨n, hn, rfl⟩ := Option.map_eq_some_iff.mp h
    cases levels with
    | none =>
      obtain rfl := Option.some.inj hn
      rfl
    | some m =>
      unfold depth at hn
      dsimp only at hn
      split_ifs at hn
      obtain rfl := Option.some.inj hn
      rfl

namespace QueryClient

/-! How promises are resolved -/

/-- Some waiters go, each with an answer that has the property. -/
structure Resolves (P : String × Option QueryData → Prop) (c c' : QueryClient) : Prop where
  waiters : c'.queryWaiters ⊆ c.queryWaiters
  answers : ∃ news, c'.answers = c.answers ++ news ∧ (news.map Prod.fst).Nodup ∧
    ∀ x ∈ news, x.1 ∈ c.queryWaiters ∧ x.1 ∉ c'.queryWaiters ∧ P x

section Resolves

variable {P : String × Option QueryData → Prop} {c c' c'' : QueryClient}

theorem resolves_same (hwaiters : c'.queryWaiters = c.queryWaiters) (hanswers : c'.answers = c.answers) :
    Resolves P c c' :=
  ⟨hwaiters.subset, [], by rw [hanswers, List.append_nil], List.nodup_nil, fun _ hx => nomatch hx⟩

theorem Resolves.trans (h : Resolves P c c') (h' : Resolves P c' c'') : Resolves P c c'' := by
  obtain ⟨hsub, news, hnews, hnodup, hall⟩ := h
  obtain ⟨hsub', news', hnews', hnodup', hall'⟩ := h'
  refine ⟨hsub'.trans hsub, news ++ news', ?_, ?_, fun x hx => ?_⟩
  · rw [hnews', hnews, List.append_assoc]
  · rw [List.map_append]
    refine List.nodup_append.mpr ⟨hnodup, hnodup', ?_⟩
    intro id hid id' hid' heq
    obtain ⟨x, hx, rfl⟩ := List.mem_map.mp hid
    obtain ⟨y, hy, rfl⟩ := List.mem_map.mp hid'
    exact (hall x hx).2.1 (heq ▸ (hall' y hy).1)
  · rcases List.mem_append.mp hx with hx | hx
    · obtain ⟨hwait, hgone, hP⟩ := hall x hx
      exact ⟨hwait, fun hmem => hgone (hsub' hmem), hP⟩
    · obtain ⟨hwait, hgone, hP⟩ := hall' x hx
      exact ⟨hsub hwait, hgone, hP⟩

theorem resolves_resolve {correlationId : String} (hwait : correlationId ∈ c.queryWaiters)
    {answer : Option QueryData} (hP : P (correlationId, answer)) :
    Resolves P c (c.resolve correlationId answer) := by
  refine ⟨Finset.erase_subset _ _, [(correlationId, answer)], rfl, List.nodup_singleton _, ?_⟩
  intro x hx
  obtain rfl := List.mem_singleton.mp hx
  exact ⟨hwait, Finset.notMem_erase _ _, hP⟩

theorem resolves_giveUp (c : QueryClient) (correlationId : String)
    (hP : P (correlationId, none)) : Resolves P c (c.giveUp correlationId) := by
  unfold giveUp
  split_ifs with hwait
  · exact resolves_resolve hwait hP
  · exact resolves_same rfl rfl

theorem resolves_tailMessage (c : QueryClient) (m : Entry EngineQueryReply)
    (hP : P (m.data.correlationId, if m.data.ok then m.data.data else none)) :
    Resolves P c (c.tailMessage m) := by
  unfold tailMessage
  by_cases hwait : m.data.correlationId ∈ c.queryWaiters
  · rw [if_pos hwait]
    exact resolves_resolve hwait hP
  · rw [if_neg hwait]
    exact resolves_same rfl rfl

theorem resolves_entries (c : QueryClient) {ms : List (Entry EngineQueryReply)}
    (hP : ∀ m ∈ ms, P (m.data.correlationId, if m.data.ok then m.data.data else none)) :
    Resolves P c (ms.foldl tailMessage c) := by
  induction ms generalizing c with
  | nil => exact resolves_same rfl rfl
  | cons m ms ih =>
    have hfirst := resolves_tailMessage c m (hP m List.mem_cons_self)
    exact hfirst.trans (ih _ fun x hx => hP x (List.mem_cons_of_mem _ hx))

end Resolves

theorem foldl_tailMessage_sending (c : QueryClient) (ms : List (Entry EngineQueryReply)) :
    (ms.foldl tailMessage c).sending = c.sending := by
  induction ms generalizing c with
  | nil => rfl
  | cons m ms ih =>
    rw [List.foldl_cons, ih]
    unfold tailMessage
    split_ifs <;> rfl

/-- What tells no data, or the data of a reply in the stream. -/
def FromReply (replies : ReplyLog) (x : String × Option QueryData) : Prop :=
  ∀ data, x.2 = some data → ∃ m ∈ replies.entries, m.data.correlationId = x.1 ∧ m.data.data = some data

/-- A step that asks nothing only resolves promises. -/
theorem Transition.resolves {queries queries' : QueryLog} {replies : ReplyLog} {c c' : QueryClient}
    {a : Action} (h : Transition queries replies c a c' queries') (ha : ∀ corr q, a ≠ .ask corr q) :
    Resolves (FromReply replies) c c' ∧ c'.sending ⊆ c.sending := by
  have hnone (corr : String) : FromReply replies (corr, none) := fun _ hdata => nomatch hdata
  cases h with
  | ask corr q => exact absurd rfl (ha corr q)
  | @sent corr id result data sent after hmem hsending hafter hsent =>
    refine ⟨?_, hsending⟩
    rcases hsent with ⟨sending, rfl⟩ | ⟨sending, rfl⟩
    · exact resolves_same rfl rfl
    · have h := resolves_giveUp { c with sending := sending } corr (hnone corr)
      exact ⟨h.waiters, h.answers⟩
  | timeout corr =>
    refine ⟨resolves_giveUp c corr (hnone corr), ?_⟩
    rw [giveUp_sending]
    exact List.Subset.refl _
  | moved ha tail => exact ⟨resolves_same rfl rfl, List.Subset.refl _⟩
  | @receive id tail =>
    constructor
    · have hP : ∀ m ∈ (replies.after id).take 100,
          FromReply replies (m.data.correlationId, if m.data.ok then m.data.data else none) := by
        intro m hm data hdata
        dsimp only at hdata
        split_ifs at hdata
        exact ⟨m, (Log.mem_after.mp (List.mem_of_mem_take hm)).1, rfl, hdata⟩
      have h := resolves_entries { c with tail := tail } hP
      exact ⟨h.waiters, h.answers⟩
    · rw [foldl_tailMessage_sending]
      exact List.Subset.refl _

end QueryClient

namespace Queries

variable {ι : Type}

/-- The calls of `engineQuery`. -/
def asks (as : List (Action ι)) : List (ι × String × QueryInput) :=
  as.filterMap fun
    | .client c (.ask correlationId q) => some (c, correlationId, q)
    | _ => none

/-- `newEventId` gives no correlation id twice. -/
def FreshIds (as : List (Action ι)) : Prop := ((asks as).map fun x => x.2.1).Nodup

theorem asks_append (as bs : List (Action ι)) : asks (as ++ bs) = asks as ++ asks bs :=
  List.filterMap_append

theorem mem_asks_append {as : List (Action ι)} {x : ι × String × QueryInput} (h : x ∈ asks as)
    (bs : List (Action ι)) : x ∈ asks (as ++ bs) := by
  rw [asks_append]
  exact List.mem_append_left _ h

theorem mem_asks {as : List (Action ι)} {c : ι} {corr : String} {q : QueryInput} :
    (c, corr, q) ∈ asks as ↔ .client c (.ask corr q) ∈ as := by
  unfold asks
  rw [List.mem_filterMap]
  constructor
  · rintro ⟨a, ha, heq⟩
    split at heq
    · obtain ⟨rfl, rfl, rfl⟩ : _ ∧ _ ∧ _ := by simpa using heq
      exact ha
    · cases heq
  · exact fun h => ⟨_, h, rfl⟩

section Fresh

variable {as bs : List (Action ι)}

theorem FreshIds.left (h : FreshIds (as ++ bs)) : FreshIds as := by
  unfold FreshIds at h ⊢
  rw [asks_append, List.map_append] at h
  exact (List.nodup_append.mp h).1

theorem FreshIds.unique (h : FreshIds as) {c c' : ι} {corr : String} {q q' : QueryInput}
    (hc : (c, corr, q) ∈ asks as) (hc' : (c', corr, q') ∈ asks as) : c = c' ∧ q = q' := by
  have heq := List.inj_on_of_nodup_map h hc hc' rfl
  exact ⟨congrArg (fun x => x.1) heq, congrArg (fun x => x.2.2) heq⟩

/-- The id of a call was not in use before. -/
theorem FreshIds.new {c c' : ι} {corr : String} {q q' : QueryInput}
    (h : FreshIds (as ++ [.client c (.ask corr q)])) : (c', corr, q') ∉ asks as := by
  intro hmem
  unfold FreshIds at h
  rw [asks_append, List.map_append] at h
  exact (List.nodup_append.mp h).2.2 corr (List.mem_map.mpr ⟨_, hmem, rfl⟩) corr
    (List.mem_singleton_self _) rfl

end Fresh

variable [DecidableEq ι] {cfg : EngineRuntime.Config}

/-- The data is what the engine has on the query at a moment after the call at which the
promise is still pending. -/
def ReadDuring (cfg : EngineRuntime.Config) (as : List (Action ι)) (c : ι) (corr : String)
    (q : QueryInput) (data : QueryData) : Prop :=
  ∃ before during after u m, as = before ++ .client c (.ask corr q) :: during ++ after ∧
    runs (step cfg) System.init (before ++ .client c (.ask corr q) :: during) = some u ∧
    corr ∈ (u.clients c).queryWaiters ∧ u.runtime.memory = some m ∧
    q.answer m.engine = some data

theorem ReadDuring.append {as : List (Action ι)} {c : ι} {corr : String} {q : QueryInput}
    {data : QueryData} (h : ReadDuring cfg as c corr q data) (bs : List (Action ι)) :
    ReadDuring cfg (as ++ bs) c corr q data := by
  obtain ⟨before, during, after, u, m, rfl, hrest⟩ := h
  exact ⟨before, during, after ++ bs, u, m, List.append_assoc _ _ _, hrest⟩

/-- A reply in the stream or on its way there. -/
def System.HasReply (s : System ι) (r : EngineQueryReply) : Prop :=
  (∃ x ∈ s.replies.entries, x.data = r) ∨ ∃ server ∈ s.server, server.replying = some r

/-- Where all that an api process has comes from. `R` are the replies. -/
structure ClientTraced (cfg : EngineRuntime.Config) (as : List (Action ι))
    (R : EngineQueryReply → Prop) (c : ι) (client : QueryClient) : Prop where
  sending : ∀ x ∈ client.sending,
    ∃ q, (c, x.1, q) ∈ asks as ∧ x.2 = (q.toObject x.1).stringify
  waiting : ∀ corr ∈ client.queryWaiters, ∃ q, (c, corr, q) ∈ asks as
  answered : ∀ x ∈ client.answers, x.1 ∉ client.queryWaiters ∧ ∃ q, (c, x.1, q) ∈ asks as
  once : (client.answers.map Prod.fst).Nodup
  read : ∀ r data, R r → r.correlationId ∈ client.queryWaiters → r.data = some data →
    ∃ q, ReadDuring cfg as c r.correlationId q data
  told : ∀ corr data, (corr, some data) ∈ client.answers → ∃ q, ReadDuring cfg as c corr q data

section Client

variable {as : List (Action ι)} {R R' : EngineQueryReply → Prop} {c : ι} {client : QueryClient}

/-- A step elsewhere: a new reply tells what is now. -/
theorem ClientTraced.append (h : ClientTraced cfg as R c client) (a : Action ι)
    (hR : ∀ r, R' r → R r ∨ ∀ data, r.correlationId ∈ client.queryWaiters → r.data = some data →
      ∃ q, ReadDuring cfg (as ++ [a]) c r.correlationId q data) :
    ClientTraced cfg (as ++ [a]) R' c client where
  sending x hx := (h.sending x hx).imp fun q hq => ⟨mem_asks_append hq.1 _, hq.2⟩
  waiting corr hcorr := (h.waiting corr hcorr).imp fun q hq => mem_asks_append hq _
  answered x hx :=
    ⟨(h.answered x hx).1, (h.answered x hx).2.imp fun q hq => mem_asks_append hq _⟩
  once := h.once
  read r data hr hwait hdata := by
    rcases hR r hr with hold | hnew
    · exact (h.read r data hold hwait hdata).imp fun q hq => hq.append [a]
    · exact hnew data hwait hdata
  told corr data hdata := (h.told corr data hdata).imp fun q hq => hq.append [a]

/-- A promise is resolved while it is pending, so that its read came before. -/
theorem ClientTraced.resolved (h : ClientTraced cfg as R c client) {client' : QueryClient}
    {P : String × Option QueryData → Prop} (hres : client.Resolves P client')
    (hP : ∀ x, P x → ∀ data, x.2 = some data →
      ∃ r, R r ∧ r.correlationId = x.1 ∧ r.data = some data)
    (hsending : client'.sending ⊆ client.sending) : ClientTraced cfg as R c client' := by
  obtain ⟨hwaiters, news, hnews, hnodup, hall⟩ := hres
  refine ⟨fun x hx => h.sending x (hsending hx), fun corr hcorr => h.waiting corr (hwaiters hcorr),
    fun x hx => ?_, ?_, fun r data hr hwait => h.read r data hr (hwaiters hwait),
    fun corr data hdata => ?_⟩
  · rw [hnews] at hx
    rcases List.mem_append.mp hx with hx | hx
    · obtain ⟨hgone, hask⟩ := h.answered x hx
      exact ⟨fun hmem => hgone (hwaiters hmem), hask⟩
    · obtain ⟨hwait, hgone, -⟩ := hall x hx
      exact ⟨hgone, h.waiting x.1 hwait⟩
  · rw [hnews, List.map_append]
    refine List.nodup_append.mpr ⟨h.once, hnodup, ?_⟩
    intro id hid id' hid' heq
    obtain ⟨x, hx, rfl⟩ := List.mem_map.mp hid
    obtain ⟨y, hy, rfl⟩ := List.mem_map.mp hid'
    exact (h.answered x hx).1 (heq ▸ (hall y hy).1)
  · rw [hnews] at hdata
    rcases List.mem_append.mp hdata with hdata | hdata
    · exact h.told corr data hdata
    · obtain ⟨hwait, -, hfrom⟩ := hall _ hdata
      obtain ⟨r, hr, rfl, hsome⟩ := hP _ hfrom data rfl
      exact h.read r data hr hwait hsome

/-- The id of a new call is that of no reply. -/
theorem ClientTraced.asked (h : ClientTraced cfg as R c client) {corr : String} {q : QueryInput}
    (hR : ∀ r, R r → ∃ c q, (c, r.correlationId, q) ∈ asks as)
    (hfresh : FreshIds (as ++ [.client c (.ask corr q)])) :
    ClientTraced cfg (as ++ [.client c (.ask corr q)]) R c { client with
      queryWaiters := insert corr client.queryWaiters
      sending := client.sending ++ [(corr, (q.toObject corr).stringify)] } := by
  have hown : (c, corr, q) ∈ asks (as ++ [.client c (.ask corr q)]) :=
    mem_asks.mpr (List.mem_append_right _ (List.mem_singleton_self _))
  have hold : ClientTraced cfg (as ++ [.client c (.ask corr q)]) R c client :=
    h.append _ fun r hr => Or.inl hr
  refine ⟨fun x hx => ?_, fun id hid => ?_, fun x hx => ?_, hold.once, fun r data hr hwait => ?_,
    hold.told⟩
  · rcases List.mem_append.mp hx with hx | hx
    · exact hold.sending x hx
    · obtain rfl := List.mem_singleton.mp hx
      exact ⟨q, hown, rfl⟩
  · rcases Finset.mem_insert.mp hid with rfl | hid
    · exact ⟨q, hown⟩
    · exact hold.waiting id hid
  · obtain ⟨hgone, hask⟩ := hold.answered x hx
    refine ⟨fun hmem => ?_, hask⟩
    rcases Finset.mem_insert.mp hmem with heq | hmem
    · obtain ⟨-, q', hq'⟩ := h.answered x hx
      exact hfresh.new (heq ▸ hq')
    · exact hgone hmem
  · rcases Finset.mem_insert.mp hwait with heq | hwait
    · obtain ⟨c', q', hq'⟩ := hR r hr
      exact absurd (heq ▸ hq') hfresh.new
    · exact hold.read r data hr hwait

end Client

/-- Where everything in the system comes from. -/
structure Traced (cfg : EngineRuntime.Config) (as : List (Action ι)) (s : System ι) : Prop where
  queries : ∀ x ∈ s.queries.entries,
    ∃ c corr q, (c, corr, q) ∈ asks as ∧ x.data = some (q.toObject corr).stringify
  batch : ∀ server ∈ s.server, ∀ x ∈ server.batch, x ∈ s.queries.entries
  replies : ∀ r, s.HasReply r → ∃ c q, (c, r.correlationId, q) ∈ asks as
  clients : ∀ c, ClientTraced cfg as s.HasReply c (s.clients c)

theorem Traced.init (cfg : EngineRuntime.Config) : Traced cfg ([] : List (Action ι)) .init where
  queries x hx := nomatch hx
  batch server hserver := nomatch hserver
  replies r hr := by
    rcases hr with ⟨x, hx, -⟩ | ⟨server, hserver, -⟩
    · cases hx
    · cases hserver
  clients c := by
    refine ⟨fun x hx => ?_, fun corr hcorr => ?_, fun x hx => ?_, List.nodup_nil,
      fun r data hr hwait => ?_, fun corr data hdata => ?_⟩
    · cases hx
    · exact absurd hcorr (Finset.notMem_empty _)
    · cases hx
    · exact absurd hwait (Finset.notMem_empty _)
    · cases hdata

section Step

variable {as : List (Action ι)} {s t : System ι}

/-- A step of the engine's side: a new reply tells what is now. -/
theorem Traced.engine (hs : Traced cfg as s) (a : Action ι) (hclients : t.clients = s.clients)
    (hqueries : t.queries = s.queries)
    (hbatch : ∀ server ∈ t.server, ∀ x ∈ server.batch, x ∈ s.queries.entries)
    (hnew : ∀ r, t.HasReply r → s.HasReply r ∨ (∃ c q, (c, r.correlationId, q) ∈ asks as) ∧
      ∀ c data, r.correlationId ∈ (s.clients c).queryWaiters → r.data = some data →
        ∃ q, ReadDuring cfg (as ++ [a]) c r.correlationId q data) :
    Traced cfg (as ++ [a]) t where
  queries x hx := by
    rw [hqueries] at hx
    obtain ⟨c, corr, q, hq, hdata⟩ := hs.queries x hx
    exact ⟨c, corr, q, mem_asks_append hq _, hdata⟩
  batch server hserver x hx := hqueries ▸ hbatch server hserver x hx
  replies r hr := by
    obtain ⟨c, q, hq⟩ := (hnew r hr).elim (hs.replies r) And.left
    exact ⟨c, q, mem_asks_append hq _⟩
  clients c := by
    rw [hclients]
    exact (hs.clients c).append a fun r hr => (hnew r hr).imp_right fun h => h.2 c

/-- The query server goes with the engine, and starts anew with it. -/
theorem Traced.runtime (hs : Traced cfg as s) (a : EngineRuntime.Action)
    (runtime : EngineRuntime.System) :
    Traced cfg (as ++ [.runtime a]) { s with runtime := runtime, server := serverAfter s.server a } := by
  have hserver : ∀ server ∈ serverAfter s.server a, server = .start ∨ server ∈ s.server := by
    intro server hserver
    cases a
    case recover => exact Or.inl (Option.some.inj hserver).symm
    case crash => cases hserver
    all_goals exact Or.inr hserver
  refine hs.engine _ rfl rfl (fun server hmem x hx => ?_) fun r hr => Or.inl (hr.imp_right ?_)
  · rcases hserver server hmem with rfl | hold
    · cases hx
    · exact hs.batch server hold x hx
  · rintro ⟨server, hmem, hreplying⟩
    rcases hserver server hmem with rfl | hold
    · cases hreplying
    · exact ⟨server, hold, hreplying⟩

/-- The moment of the read is that of the answer. -/
theorem Traced.answered_now (hs : Traced cfg as s) (hfresh : FreshIds as)
    (hrun : runs (step cfg) System.init as = some s) {m : EngineRuntime.Memory}
    (hm : s.runtime.memory = some m) {x : Entry (Option Json)} (hx : x ∈ s.queries.entries)
    {r : EngineQueryReply} (hr : answerQuery m.engine x.data = some r) (a : Action ι) :
    (∃ c q, (c, r.correlationId, q) ∈ asks as) ∧
      ∀ c data, r.correlationId ∈ (s.clients c).queryWaiters → r.data = some data →
        ∃ q, ReadDuring cfg (as ++ [a]) c r.correlationId q data := by
  obtain ⟨c, corr, q, hask, hdata⟩ := hs.queries x hx
  obtain ⟨query, hquery, rfl⟩ := Option.map_eq_some_iff.mp hr
  have hparsed : q.query corr = some query := by
    rw [← QueryInput.parse_toObject]
    rw [hdata] at hquery
    exact hquery
  have hcorr := QueryInput.query_correlationId hparsed
  dsimp only
  rw [hcorr]
  refine ⟨⟨c, q, hask⟩, fun c' data hwait hsome => ⟨q, ?_⟩⟩
  obtain ⟨q', hask'⟩ := (hs.clients c').waiting corr hwait
  obtain ⟨rfl, rfl⟩ := hfresh.unique hask hask'
  obtain ⟨before, during, rfl⟩ := List.append_of_mem (mem_asks.mp hask)
  exact ⟨before, during, [a], s, m, rfl, hrun, hwait, hm,
    (QueryInput.answer_eq hparsed m.engine).symm.trans hsome⟩

theorem Traced.server (hs : Traced cfg as s) (hfresh : FreshIds as)
    (hrun : runs (step cfg) System.init as = some s) {a : QueryServer.Action} {server : QueryServer}
    {m : EngineRuntime.Memory} {server' : Option QueryServer} {replies : ReplyLog}
    (hserver : s.server = some server) (hm : s.runtime.memory = some m)
    (h : QueryServer.Transition m.engine s.queries s.replies server a server' replies) :
    Traced cfg (as ++ [.server a]) { s with server := server', replies := replies } := by
  have hbatch := hs.batch server hserver
  have hold {r : EngineQueryReply} (hr : server.replying = some r) : s.HasReply r :=
    Or.inr ⟨server, hserver, hr⟩
  -- the reply goes from the loop to the stream
  have hadded {id : StreamId} {reply : EngineQueryReply} (hreplying : server.replying = some reply)
      (hadd : s.replies.add ⟨id, reply⟩ = some replies) {r : EngineQueryReply}
      (hr : ∃ x ∈ replies.entries, x.data = r) : s.HasReply r := by
    obtain ⟨x, hx, rfl⟩ := hr
    rcases (Log.mem_of_add hadd).mp hx with hx | rfl
    · exact Or.inl ⟨x, hx, rfl⟩
    · exact hold hreplying
  have hkept (tail : Tail) (batch : List (Entry (Option Json)))
      (hmem : ∀ x ∈ batch, x ∈ s.queries.entries) (a : Action ι) :
      Traced cfg (as ++ [a]) { s with server := some ⟨tail, batch, server.replying⟩ } := by
    refine hs.engine a rfl rfl (fun sv hsv x hx => ?_) fun r hr => Or.inl ?_
    · obtain rfl := Option.some.inj hsv
      exact hmem x hx
    · rcases hr with hr | ⟨sv, hsv, hr⟩
      · exact Or.inl hr
      · obtain rfl := Option.some.inj hsv
        exact hold hr
  have hended (a : Action ι) (replies : ReplyLog)
      (hmem : ∀ r, (∃ x ∈ replies.entries, x.data = r) → s.HasReply r) :
      Traced cfg (as ++ [a]) { s with server := none, replies := replies } := by
    refine hs.engine a rfl rfl (fun sv hsv => nomatch hsv) fun r hr => Or.inl ?_
    rcases hr with hr | ⟨sv, hsv, -⟩
    · exact hmem r hr
    · cases hsv
  cases h with
  | read hcall hempty hreplying => exact hkept _ _ hbatch _
  | receive hcall hnew =>
    exact hkept _ _ (fun x hx => (Log.mem_after.mp (List.mem_of_mem_take hx)).1) _
  | timeout hcall hnone => exact hkept _ _ hbatch _
  | @answer x batch hnext hreplying =>
    rw [hnext] at hbatch
    refine hs.engine _ rfl rfl (fun sv hsv y hy => ?_) fun r hr => ?_
    · obtain rfl := Option.some.inj hsv
      exact hbatch y (List.mem_cons_of_mem _ hy)
    · rcases hr with hr | ⟨sv, hsv, hr⟩
      · exact Or.inl (Or.inl hr)
      · obtain rfl := Option.some.inj hsv
        exact Or.inr (hs.answered_now hfresh hrun hm (hbatch x List.mem_cons_self) hr _)
  | replied hreplying hlog =>
    refine hs.engine _ rfl rfl (fun sv hsv x hx => ?_) fun r hr => Or.inl ?_
    · obtain rfl := Option.some.inj hsv
      exact hbatch x hx
    · rcases hr with hr | ⟨sv, hsv, hr⟩
      · exact hadded hreplying hlog hr
      · obtain rfl := Option.some.inj hsv
        cases hr
  | lost hreplying hlog => exact hended _ _ fun r hr => hadded hreplying hlog hr
  | failed => exact hended _ _ fun r hr => Or.inl hr
  | fail => exact hended _ _ fun r hr => Or.inl hr

theorem Traced.client (hs : Traced cfg as s) {c : ι} {a : QueryClient.Action}
    (hfresh : FreshIds (as ++ [.client c a])) {client : QueryClient} {queries : QueryLog}
    (h : QueryClient.Transition s.queries s.replies (s.clients c) a client queries) :
    Traced cfg (as ++ [.client c a])
      { s with clients := Function.update s.clients c client, queries := queries } := by
  have hmore {x : ι × String × QueryInput} (hx : x ∈ asks as) :
      x ∈ asks (as ++ [.client c a]) := mem_asks_append hx _
  have hown : ClientTraced cfg (as ++ [.client c a]) s.HasReply c client := by
    by_cases hask : ∃ corr q, a = .ask corr q
    · obtain ⟨corr, q, rfl⟩ := hask
      cases h with
      | ask => exact (hs.clients c).asked hs.replies hfresh
      | moved ha => simp at ha
    · obtain ⟨hres, hsending⟩ := h.resolves fun corr q ha => hask ⟨corr, q, ha⟩
      have hown := (hs.clients c).resolved hres (fun x hx data hdata => ?_) hsending
      · exact hown.append _ fun r hr => Or.inl hr
      · obtain ⟨m, hm, hcorr, hsome⟩ := hx data hdata
        exact ⟨m.data, Or.inl ⟨m, hm, rfl⟩, hcorr, hsome⟩
  refine ⟨fun x hx => ?_, fun server hserver x hx => ?_, fun r hr => ?_, fun c' => ?_⟩
  · have hold : x ∈ s.queries.entries ∨ ∃ y ∈ (s.clients c).sending, x.data = some y.2 := by
      rcases h.added with heq | ⟨y, hy, id, hadd⟩
      · exact Or.inl (heq ▸ hx)
      · refine ((Log.mem_of_add hadd).mp hx).imp_right ?_
        rintro rfl
        exact ⟨y, hy, rfl⟩
    rcases hold with hx | ⟨y, hy, hdata⟩
    · obtain ⟨c', corr, q, hq, hdata⟩ := hs.queries x hx
      exact ⟨c', corr, q, hmore hq, hdata⟩
    · obtain ⟨q, hq, hy⟩ := (hs.clients c).sending y hy
      exact ⟨c, y.1, q, hmore hq, hdata.trans (congrArg some hy)⟩
  · have hold := hs.batch server hserver x hx
    rcases h.added with heq | ⟨y, hy, id, hadd⟩
    · exact heq ▸ hold
    · exact (Log.mem_of_add hadd).mpr (Or.inl hold)
  · obtain ⟨c', q, hq⟩ := hs.replies r hr
    exact ⟨c', q, hmore hq⟩
  · dsimp only
    by_cases heq : c' = c
    · subst heq
      rw [Function.update_self]
      exact hown
    · rw [Function.update_of_ne heq]
      exact (hs.clients c').append _ fun r hr => Or.inl hr

end Step

theorem traced_run {as : List (Action ι)} {s : System ι} (hfresh : FreshIds as)
    (hrun : runs (step cfg) System.init as = some s) : Traced cfg as s := by
  refine runs_history (I := fun as s => FreshIds as → Traced cfg as s) (fun _ => .init cfg)
    (fun as a s t hrun h hs hfresh => ?_) hrun hfresh
  have hs := hs hfresh.left
  cases step_cases h with
  | runtime _ => exact hs.runtime _ _
  | server hserver hm hstep => exact hs.server hfresh.left hrun hserver hm hstep
  | client hstep => exact hs.client hfresh hstep

/-- A promise is resolved at most once, and if not with `null`, then with what the running
engine had on the query at one moment while the promise was pending. -/
theorem reads_linearizable (cfg : EngineRuntime.Config) {as : List (Action ι)} {s : System ι}
    (hfresh : FreshIds as) (hrun : runs (step cfg) System.init as = some s) (c : ι) :
    ((s.clients c).answers.map Prod.fst).Nodup ∧
      ∀ corr data, (corr, some data) ∈ (s.clients c).answers →
        ∃ q, ReadDuring cfg as c corr q data :=
  ⟨((traced_run hfresh hrun).clients c).once, ((traced_run hfresh hrun).clients c).told⟩

end Queries

namespace Fixture

/-- Two processes read the balance of a user, and a deposit comes between the two answers.
The second reply is lost to the engine, which crashes. -/
def readRun : List (Queries.Action Bool) :=
  [.runtime (.add newUser), .runtime (.recover []), .server .read, .client true .read,
    .client true (.ask "q1" (.getBalance "u")), .client false .read,
    .client false (.ask "q2" (.getBalance "u")), .client true (.enqueue "q1" ⟨1, 0⟩ .ok),
    .client false (.enqueue "q2" ⟨2, 0⟩ .ok), .server .receive, .server .answer,
    .runtime (.add deposit), .runtime (.readNew .ok), .runtime .dispatch, .runtime (.ack .ok),
    .runtime .dispatch, .server (.reply ⟨3, 0⟩ .ok), .server .answer, .server (.reply ⟨4, 0⟩ .lost),
    .runtime .crash, .client true .receive, .client false .receive]

end Fixture

namespace Queries

open Fixture in
theorem reads_linearizable_deposit :
    ∃ s, runs (step CONFIG) System.init readRun = some s ∧
      (∃ data, ("q2", some data) ∈ (s.clients false).answers) ∧
      ((s.clients false).answers.map Prod.fst).Nodup ∧
      ∀ corr data, (corr, some data) ∈ (s.clients false).answers →
        ∃ q, ReadDuring CONFIG readRun false corr q data := by
  have hfacts : ∃ s ∈ runs (step CONFIG) System.init readRun,
      ∃ x ∈ (s.clients false).answers, x.1 = "q2" ∧ x.2.isSome := by decide +kernel
  obtain ⟨s, hs, ⟨corr, answer⟩, hmem, rfl, hsome⟩ := hfacts
  obtain ⟨data, rfl⟩ := Option.isSome_iff_exists.mp hsome
  have hfresh : FreshIds readRun := by
    unfold FreshIds
    decide
  exact ⟨s, hs, ⟨data, hmem⟩, reads_linearizable CONFIG hfresh hs false⟩

end Queries

end Perps
