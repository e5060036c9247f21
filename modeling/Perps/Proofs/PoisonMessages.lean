import Perps.Runtime.StreamConsumer

/-! The bound on deliveries. The loop knows how often a message was delivered from a
range query over the pending list of the whole group, so the bound holds as long as
the query covers what was claimed, and nobody claims what another consumer is about
to handle. -/

namespace Perps

open Lib
open EngineRuntime (Reply)

namespace StreamConsumer

variable {ι α : Type}

/-- Messages that have been delivered too often go to the dead-letter stream. -/
structure Bounded [DecidableEq ι] (opts : ι → ConsumerOptions) (s : System ι α) : Prop where
  invoked : ∀ call ∈ s.invoked, call.delivered ≤ (opts call.consumer).maxDeliveries
  deadLettered : ∀ c msg batch claimed, s.consumers c = some ⟨.idle, msg :: batch, claimed⟩ →
    (opts c).maxDeliveries < s.delivered msg.id →
      step opts s (.of c .dispatch) = some (s.set c ⟨.deadLettering msg, batch, claimed⟩)
  copied : ∀ c msg batch claimed, s.consumers c = some ⟨.deadLettering msg, batch, claimed⟩ →
    ∃ s', step opts s (.of c (.deadLetter .ok)) = some s' ∧
      s'.consumers c = some ⟨.deadAcking msg, batch, claimed⟩ ∧
      ∃ d ∈ s'.deadLetters, d.dlqId = msg.id ∧ d.fields = msg.data
  acked : ∀ c msg batch claimed, s.consumers c = some ⟨.deadAcking msg, batch, claimed⟩ →
    ∃ s', step opts s (.of c (.ack .ok)) = some s' ∧ s'.group.Acked msg.id

def Work.valid : Work α → List (Entry α)
  | .counting valid => valid
  | _ => []

/-- The first as many pending entries as were claimed include those delivered too often.
If an entry is not among them, its counter is taken to be 1. -/
def Covered (opts : ConsumerOptions) (s : System ι α) (valid : List (Entry α)) : Prop :=
  ∀ x ∈ valid, x.id ∈ (s.group.pending.take valid.length).map PendingEntry.id ∨
    s.delivered x.id ≤ opts.maxDeliveries ∨ opts.maxDeliveries = 0

/-- No consumer is about to handle one of the entries that may not be delivered again. -/
def Unclaimed (opts : ι → ConsumerOptions) (s : System ι α) (ids : List StreamId) : Prop :=
  ∀ c, ∀ m ∈ s.consumers c, ∀ msg ∈ m.batch, msg.id ∈ ids →
    msg.deliveries ≤ (opts c).maxDeliveries → s.delivered msg.id < (opts c).maxDeliveries

def CountsKnown (opts : ι → ConsumerOptions) (s : System ι α) : Action ι α → Prop
  | .of c (.reclaim idle reply) =>
    reply.executed = true → Unclaimed opts s (s.group.claimable idle (opts c).count)
  | .of c (.count reply) =>
    reply = .ok → ∀ m ∈ s.consumers c, Covered (opts c) s m.work.valid
  | _ => True

instance (opts : ConsumerOptions) (s : System ι α) (valid : List (Entry α)) :
    Decidable (Covered opts s valid) :=
  inferInstanceAs (Decidable (∀ x ∈ valid, _))

instance [Fintype ι] (opts : ι → ConsumerOptions) (s : System ι α) (ids : List StreamId) :
    Decidable (Unclaimed opts s ids) :=
  inferInstanceAs (Decidable (∀ c, ∀ m ∈ s.consumers c, ∀ msg ∈ m.batch, _))

instance [Fintype ι] (opts : ι → ConsumerOptions) (s : System ι α) :
    (a : Action ι α) → Decidable (CountsKnown opts s a)
  | .of _ (.reclaim _ _) => inferInstanceAs (Decidable (_ → _))
  | .of _ (.count _) => inferInstanceAs (Decidable (_ → _))
  | .of _ .start | .of _ .crash | .of _ (.readNew _) | .of _ .dispatch | .of _ .resolve
  | .of _ .throw | .of _ (.deadLetter _) | .of _ (.ack _) | .add _ =>
    inferInstanceAs (Decidable True)

/-- What the consumers know of the number of deliveries. -/
structure Knows (opts : ι → ConsumerOptions) (s : System ι α) : Prop where
  counters : ∀ p ∈ s.group.pending, p.deliveriesCounter = s.delivered p.id
  fresh : ∀ id, s.group.lastDelivered < id → s.delivered id = 0
  batch : Each s fun c m => ∀ msg ∈ m.batch, msg.deliveries ≤ (opts c).maxDeliveries →
    s.delivered msg.id ≤ (opts c).maxDeliveries
  invoked : ∀ call ∈ s.invoked, call.delivered ≤ (opts call.consumer).maxDeliveries

section Knows

variable {opts : ι → ConsumerOptions} {s : System ι α}

theorem Knows.start (opts : ι → ConsumerOptions) {log : Log α} {group : Group}
    (h : group.WellFormed) : Knows opts (System.start log group : System ι α) := by
  refine ⟨fun p hp => ?_, fun id hid => ?_, fun _ _ hm => (nomatch hm),
    fun _ hcall => absurd hcall List.not_mem_nil⟩
  · have hmem : p.id ∈ (group.pending.take group.pending.length).map PendingEntry.id := by
      rw [List.take_length]
      exact List.mem_map_of_mem hp
    dsimp only [System.start] at hp ⊢
    cases hcount : Group.deliveryCounts group group.pending.length p.id with
    | none => exact absurd hmem (Group.deliveryCounts_eq_none.mp hcount)
    | some counter =>
      obtain ⟨q, hq, hid, rfl⟩ := Group.eq_of_deliveryCounts hcount
      have hnodup : (group.pending.map PendingEntry.id).Nodup :=
        List.pairwise_map.mpr (h.sorted.imp fun hlt => hlt.ne)
      rw [List.inj_on_of_nodup_map hnodup hp (List.mem_of_mem_take hq) hid.symm, Option.getD_some]
  · have hout : id ∉ (group.pending.take group.pending.length).map PendingEntry.id := by
      intro hmem
      obtain ⟨p, hp, rfl⟩ := List.mem_map.mp hmem
      exact not_le.mpr hid (h.delivered p (List.mem_of_mem_take hp))
    exact congrArg (Option.getD · 0) (Group.deliveryCounts_eq_none.mpr hout)

theorem Knows.claim (h : Knows opts s) (hs : Sound s) {ids : List StreamId}
    (hids : ids ⊆ s.group.pending.map PendingEntry.id) (hfree : Unclaimed opts s ids) :
    Knows opts (s.claim ids) := by
  refine ⟨fun p hp => ?_, fun id hid => ?_, fun c m hm msg hmsg hle => ?_, h.invoked⟩
  · obtain ⟨q, hq, rfl⟩ := List.mem_map.mp hp
    have hcount := h.counters q hq
    dsimp only [System.claim, System.deliver]
    by_cases hmem : q.id ∈ ids
    · simp only [hmem, if_true, hcount]
    · simp only [hmem, if_false, hcount]
  · have hout : id ∉ ids := by
      intro hmem
      obtain ⟨p, hp, rfl⟩ := List.mem_map.mp (hids hmem)
      exact not_le.mpr hid (hs.wellFormed.delivered p hp)
    exact (if_neg hout).trans (h.fresh id hid)
  · dsimp only [System.claim, System.deliver]
    split_ifs with hmem
    · exact hfree c m hm msg hmsg hmem hle
    · exact h.batch c m hm msg hmsg hle

theorem Knows.readNew (h : Knows opts s) (hs : Sound s) (count : ℕ) :
    Knows opts (s.readNew count) := by
  have hids : (s.group.readNew s.log count).2.map (fun msg => msg.id) =
      ((s.log.after s.group.lastDelivered).take count).map Entry.id :=
    List.map_map
  have hold {id : StreamId} (hid : id ≤ s.group.lastDelivered) :
      (s.readNew count).delivered id = s.delivered id := by
    refine if_neg fun hmem => ?_
    obtain ⟨x, hx, rfl⟩ := List.mem_map.mp (hids ▸ hmem)
    exact not_le.mpr (Log.mem_after.mp (List.mem_of_mem_take hx)).2 hid
  refine ⟨fun p hp => ?_, fun id hid => ?_, fun c m hm msg hmsg hle => ?_, h.invoked⟩
  · rcases List.mem_append.mp hp with hp | hp
    · rw [hold (hs.wellFormed.delivered p hp), h.counters p hp]
    · obtain ⟨x, hx, rfl⟩ := List.mem_map.mp hp
      have hnew := h.fresh x.id (Log.mem_after.mp (List.mem_of_mem_take hx)).2
      have hmem : x.id ∈ (s.group.readNew s.log count).2.map fun msg => msg.id :=
        hids ▸ List.mem_map_of_mem hx
      exact (if_pos hmem).trans (congrArg (· + 1) hnew) |>.symm
  · have hout : id ∉ (s.group.readNew s.log count).2.map fun msg => msg.id := by
      intro hmem
      obtain ⟨x, hx, rfl⟩ := List.mem_map.mp (hids ▸ hmem)
      exact not_le.mpr hid (Group.readNew_batch_le hx)
    exact (if_neg hout).trans (h.fresh id (Group.readNew_lastDelivered_le.trans_lt hid))
  · have hmem : msg.toEntry ∈ m.entries :=
      List.mem_append_right _ (List.mem_map_of_mem hmsg)
    rw [hold (hs.held c m hm _ hmem).2]
    exact h.batch c m hm msg hmsg hle

/-- New entries have been delivered once. -/
theorem Knows.delivered_new (h : Knows opts s) {count : ℕ} {msg : StreamMessage α}
    (hmsg : msg ∈ (s.group.readNew s.log count).2) :
    (s.readNew count).delivered msg.id = msg.deliveries := by
  obtain ⟨x, hx, rfl⟩ := List.mem_map.mp hmsg
  have hnew := h.fresh x.id (Log.mem_after.mp (List.mem_of_mem_take hx)).2
  exact (if_pos (List.mem_map_of_mem hmsg)).trans (congrArg (· + 1) hnew)

/-- Claimed entries are counted right, or come as delivered once. -/
theorem Knows.delivered_counted (h : Knows opts s) {valid : List (Entry α)}
    {limits : ConsumerOptions} (hcov : Covered limits s valid) {msg : StreamMessage α}
    (hmsg : msg ∈ counted s valid) (hle : msg.deliveries ≤ limits.maxDeliveries) :
    s.delivered msg.id ≤ limits.maxDeliveries := by
  obtain ⟨x, hx, rfl⟩ := List.mem_map.mp hmsg
  dsimp only at hle ⊢
  cases hcount : Group.deliveryCounts s.group valid.length x.id with
  | some counter =>
    obtain ⟨p, hp, hid, rfl⟩ := Group.eq_of_deliveryCounts hcount
    rwa [hcount, Option.getD_some, h.counters p (List.mem_of_mem_take hp), hid] at hle
  | none =>
    rw [hcount, Option.getD_none] at hle
    rcases hcov x hx with hmem | hdelivered | hzero
    · exact absurd hmem (Group.deliveryCounts_eq_none.mp hcount)
    · exact hdelivered
    · omega

theorem Knows.ack (h : Knows opts s) (id : StreamId) : Knows opts (s.ack id) :=
  ⟨fun p hp => h.counters p (List.mem_of_mem_filter hp), h.fresh, h.batch, h.invoked⟩

theorem Knows.deadLetter (h : Knows opts s) (limits : ConsumerOptions) (msg : StreamMessage α) :
    Knows opts (s.deadLetter limits msg) :=
  ⟨h.counters, h.fresh, h.batch, h.invoked⟩

variable [DecidableEq ι] {c : ι} {m : Memory α}

theorem Knows.set (h : Knows opts s) (hm : ∀ msg ∈ m.batch,
    msg.deliveries ≤ (opts c).maxDeliveries → s.delivered msg.id ≤ (opts c).maxDeliveries) :
    Knows opts (s.set c m) :=
  ⟨h.counters, h.fresh, h.batch.set hm, h.invoked⟩

theorem Knows.restart (h : Knows opts s) : Knows opts (s.set c .restart) :=
  h.set fun _ hmsg => absurd hmsg List.not_mem_nil

theorem Knows.keep (h : Knows opts s) (hm : s.consumers c = some m) (m' : Memory α)
    (hsub : m'.batch ⊆ m.batch) : Knows opts (s.set c m') :=
  h.set fun msg hmsg => h.batch c m hm msg (hsub hmsg)

theorem knows_step {s' : System ι α} {a : Action ι α} (h : step opts s a = some s') (hs : Sound s)
    (hC : CountsKnown opts s a) (hk : Knows opts s) : Knows opts s' := by
  cases step_cases h with
  | add hlog => exact ⟨hk.counters, hk.fresh, hk.batch, hk.invoked⟩
  | start hdown => exact hk.restart
  | crash => exact ⟨hk.counters, hk.fresh, hk.batch.crash, hk.invoked⟩
  | @reclaim idle reply c hm =>
    have hexec : Knows opts (execute reply s (s.claim (s.group.claimable idle (opts c).count))) := by
      unfold execute
      split_ifs with hexecuted
      · exact hk.claim hs (fun _ => Group.mem_claimable) (hC hexecuted)
      · exact hk
    split_ifs
    · exact hexec.set fun _ hmsg => absurd hmsg List.not_mem_nil
    · exact hexec.restart
  | @count reply c valid batch claimed hm =>
    split_ifs with hreply
    · exact hk.set fun msg hmsg => hk.delivered_counted (hC hreply _ hm) hmsg
    · exact hk.restart
  | @readNew reply c hm =>
    have hexec := execute_of reply hk (hk.readNew hs (opts c).count)
    split_ifs with hreply
    · refine hexec.set fun msg hmsg hle => ?_
      subst hreply
      exact (hk.delivered_new hmsg).trans_le hle
    · exact hexec.restart
  | @dispatch c msg batch claimed hm =>
    have hkeep (work : Work α) : Knows opts (s.set c ⟨work, batch, claimed⟩) :=
      hk.keep hm _ fun _ hmsg => List.mem_cons_of_mem _ hmsg
    unfold dispatch
    split_ifs with hmax
    · exact hkeep _
    · refine ⟨hk.counters, hk.fresh, (hkeep (.handling msg)).batch, fun call hcall => ?_⟩
      rcases List.mem_append.mp hcall with hcall | hcall
      · exact hk.invoked call hcall
      · obtain rfl := List.mem_singleton.mp hcall
        exact hk.batch c _ hm msg List.mem_cons_self (not_lt.mp hmax)
  | @resolve c msg batch claimed hm =>
    have hkeep := hk.keep hm ⟨.acking msg, batch, claimed⟩ (List.Subset.refl _)
    exact ⟨hkeep.counters, hkeep.fresh, hkeep.batch, hkeep.invoked⟩
  | throw hm => exact hk.keep hm _ (List.Subset.refl _)
  | @deadLetter reply c msg batch claimed hm =>
    have hexec := execute_of reply hk (hk.deadLetter (opts c) msg)
    have hm' : (execute reply s (s.deadLetter (opts c) msg)).consumers c = _ :=
      (congrFun (execute_consumers (System.deadLetter_consumers ..)) c).trans hm
    split_ifs
    · exact hexec.keep hm' _ (List.Subset.refl _)
    · exact hexec.restart
  | @ack reply c msg batch claimed hm =>
    have hexec := execute_of reply hk (hk.ack msg.id)
    have hm' : (execute reply s (s.ack msg.id)).consumers c = _ :=
      (congrFun (execute_consumers (System.ack_consumers ..)) c).trans hm
    exact hexec.keep hm' _ (List.Subset.refl _)
  | @deadAck reply c msg batch claimed hm =>
    have hexec := execute_of reply hk (hk.ack msg.id)
    have hm' : (execute reply s (s.ack msg.id)).consumers c = _ :=
      (congrFun (execute_consumers (System.ack_consumers ..)) c).trans hm
    split_ifs
    · exact hexec.keep hm' _ (List.Subset.refl _)
    · exact hexec.restart

theorem bounded_of (hs : Sound s) (hk : Knows opts s) : Bounded opts s := by
  refine ⟨hk.invoked, fun c msg batch claimed hm hover => ?_, fun c msg batch claimed hm => ?_,
    fun c msg batch claimed hm => ?_⟩
  · have hmax : msg.deliveries > (opts c).maxDeliveries := by
      by_contra hle
      exact not_le.mpr hover (hk.batch c _ hm msg List.mem_cons_self (not_lt.mp hle))
    simp only [step, live, hm, dispatch, if_pos hmax]
  · refine ⟨(s.deadLetter (opts c) msg).set c ⟨.deadAcking msg, batch, claimed⟩, ?_, ?_,
      ⟨msg.data, (opts c).stream, (opts c).group, msg.id, msg.deliveries⟩, ?_, rfl, rfl⟩
    · simp only [step, live, hm, execute, Reply.executed]
      rfl
    · rw [System.set_consumers, Function.update_self]
    · exact List.mem_append_right _ (List.mem_singleton_self _)
  · refine ⟨(s.ack msg.id).set c ⟨.idle, batch, claimed⟩, ?_, ?_, fun hmem => ?_⟩
    · simp only [step, live, hm, execute, Reply.executed]
      rfl
    · have hmem : msg.toEntry ∈ (Memory.mk (.deadAcking msg) batch claimed).entries :=
        List.mem_cons_self
      exact (hs.held c _ hm _ hmem).2
    · obtain ⟨p, hp, hid⟩ := List.mem_map.mp hmem
      exact of_decide_eq_true (List.mem_filter.mp hp).2 hid

end Knows

/-- In a run whose consumers know the counters of what they claim, no handler sees a
message more often than the limit allows. -/
theorem runs_bounded [DecidableEq ι] (opts : ι → ConsumerOptions) (log : Log α) (group : Group)
    (hgroup : group.WellFormed) (as : List (Action ι α)) (s : System ι α)
    (hC : Along (step opts) (CountsKnown opts) (.start log group) as)
    (hrun : runs (step opts) (.start log group) as = some s) : Bounded opts s := by
  have hinv : Sound s ∧ Knows opts s :=
    runs_invariant (I := fun s => Sound s ∧ Knows opts s)
      (fun _ _ _ hC hstep h => ⟨sound_step hstep h.1, knows_step hstep h.1 hC h.2⟩)
      ⟨Sound.start hgroup, Knows.start opts hgroup⟩ hC hrun
  exact bounded_of hinv.1 hinv.2

namespace Fixture

def options (count maxDeliveries : ℕ) : ConsumerOptions := ⟨"input", "engine", count, maxDeliveries⟩

def of (c : Bool) (calls : List Call) : List (Action Bool String) :=
  calls.map fun call => .of c call

def add : List (Action Bool String) := [.add ⟨⟨1, 0⟩, "a"⟩, .add ⟨⟨2, 0⟩, "b"⟩]

/-- The first consumer is handed both entries, and its handler throws. -/
def fail : List (Action Bool String) :=
  of false [.start, .reclaim [] .ok, .readNew .ok, .dispatch, .throw, .dispatch, .throw]

/-- The second consumer claims the first entry and is about to copy it, and the first
claims the second entry. Its range query finds the other one. -/
def overlap : List (Action Bool String) :=
  add ++ fail ++ of true [.start, .reclaim [⟨1, 0⟩, ⟨2, 0⟩] .ok, .count .ok, .dispatch] ++
    of false [.reclaim [⟨2, 0⟩] .ok, .count .ok, .dispatch]

/-- The first consumer claims both and copies them. -/
def poison : List (Action Bool String) :=
  add ++ fail ++ of false [.reclaim [⟨1, 0⟩, ⟨2, 0⟩] .ok, .count .ok, .dispatch, .deadLetter .ok,
    .ack .ok, .dispatch, .deadLetter .ok, .ack .ok]

end Fixture

open StreamConsumer.Fixture in
theorem runs_bounded_poison :
    ∃ s, runs (step fun _ => options 10 1) (.start .empty .create) poison = some s ∧
      Bounded (fun _ => options 10 1) s := by
  have hsome : (runs (step fun _ => options 10 1) (.start .empty .create) poison).isSome := by
    decide +kernel
  obtain ⟨s, hs⟩ := Option.isSome_iff_exists.mp hsome
  exact ⟨s, hs, runs_bounded _ _ _ .create poison s (by decide +kernel) hs⟩

open StreamConsumer.Fixture in
/-- A handler is called on a message that has been delivered twice, where the limit is 1. -/
theorem not_runs_bounded_overlap :
    ¬ ∀ s, runs (step fun c => options (if c then 1 else 10) 1) (.start .empty .create) overlap =
      some s → Bounded (fun c => options (if c then 1 else 10) 1) s := by
  intro h
  have hcalls : (runs (step fun c => options (if c then 1 else 10) 1) (.start .empty .create)
      overlap).map (fun s => s.invoked) =
      some [⟨false, ⟨1, 0⟩, 1⟩, ⟨false, ⟨2, 0⟩, 1⟩, ⟨false, ⟨2, 0⟩, 2⟩] := by
    decide +kernel
  obtain ⟨s, hs, hinvoked⟩ := Option.map_eq_some_iff.mp hcalls
  have hlast := (h s hs).invoked ⟨false, ⟨2, 0⟩, 2⟩ (by rw [hinvoked]; decide)
  exact absurd hlast (by decide)

end StreamConsumer

end Perps
