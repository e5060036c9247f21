import Perps.Runtime.EngineRuntime

/-! Any number of consumers on one group. A step is one command to Redis or the
outcome of one handler, so the consumers interleave at every await, and a consumer
can crash between any two. -/

namespace Perps

open EngineRuntime (Reply)

structure ConsumerOptions where
  stream : String
  group : String
  count : ℕ
  maxDeliveries : ℕ

/-- What `dispatch` appends to the dead-letter stream. -/
structure DeadLetter (α : Type) where
  fields : α
  dlqFrom : String
  dlqGroup : String
  dlqId : StreamId
  dlqDeliveries : ℕ
  deriving DecidableEq

namespace StreamConsumer

variable {ι α : Type}

/-- What the loop awaits. -/
inductive Work (α : Type) where
  | idle
  | counting (valid : List (Entry α))
  | handling (msg : StreamMessage α)
  | acking (msg : StreamMessage α)
  | deadLettering (msg : StreamMessage α)
  | deadAcking (msg : StreamMessage α)

structure Memory (α : Type) where
  work : Work α
  /-- What is left of the batch. -/
  batch : List (StreamMessage α)
  /-- The batch was claimed, and new entries are read after it. -/
  claimed : Bool

/-- The loop starts again, also after an error outside the handler. -/
def Memory.restart : Memory α := ⟨.idle, [], false⟩

/-- A call of the handler, with the number of times that the message had been
delivered by then, to whichever consumer. -/
structure Invocation (ι : Type) where
  consumer : ι
  id : StreamId
  delivered : ℕ
  deriving DecidableEq

structure System (ι α : Type) where
  log : Log α
  group : Group
  deadLetters : List (DeadLetter α)
  consumers : ι → Option (Memory α)
  /-- How many times a message has been delivered. -/
  delivered : StreamId → ℕ
  acked : List StreamId
  invoked : List (Invocation ι)
  resolved : List StreamId

namespace System

/-- No consumer runs yet. -/
def start (log : Log α) (group : Group) : System ι α where
  log := log
  group := group
  deadLetters := []
  consumers := fun _ => none
  delivered := fun id => (Group.deliveryCounts group group.pending.length id).getD 0
  acked := []
  invoked := []
  resolved := []

def set [DecidableEq ι] (s : System ι α) (c : ι) (m : Memory α) : System ι α :=
  { s with consumers := Function.update s.consumers c (some m) }

theorem set_consumers [DecidableEq ι] (s : System ι α) (c : ι) (m : Memory α) :
    (s.set c m).consumers = Function.update s.consumers c (some m) :=
  rfl

/-! The commands to Redis -/

def deliver (s : System ι α) (ids : List StreamId) : System ι α :=
  { s with delivered := fun id => if id ∈ ids then s.delivered id + 1 else s.delivered id }

def claim (s : System ι α) (ids : List StreamId) : System ι α :=
  { s.deliver ids with group := s.group.claim ids }

def readNew (s : System ι α) (count : ℕ) : System ι α :=
  { s.deliver ((s.group.readNew s.log count).2.map fun msg => msg.id) with
    group := (s.group.readNew s.log count).1 }

def ack (s : System ι α) (id : StreamId) : System ι α :=
  { s with group := s.group.ack id, acked := s.acked ++ [id] }

def deadLetter (s : System ι α) (opts : ConsumerOptions) (msg : StreamMessage α) : System ι α :=
  { s with
    deadLetters := s.deadLetters ++
      [⟨msg.data, opts.stream, opts.group, msg.id, msg.deliveries⟩] }

theorem ack_consumers (s : System ι α) (id : StreamId) : (s.ack id).consumers = s.consumers :=
  rfl

theorem deadLetter_consumers (s : System ι α) (opts : ConsumerOptions) (msg : StreamMessage α) :
    (s.deadLetter opts msg).consumers = s.consumers :=
  rfl

end System

inductive Call where
  | start
  | crash
  /-- `xAutoClaim`, when the entries `idle` have been pending for long enough. -/
  | reclaim (idle : List StreamId) (reply : Reply)
  /-- `xPendingRange`, which changes nothing. -/
  | count (reply : Reply)
  | readNew (reply : Reply)
  | dispatch
  | resolve
  | throw
  | deadLetter (reply : Reply)
  | ack (reply : Reply)

inductive Action (ι α : Type) where
  | add (entry : Entry α)
  | of (c : ι) (call : Call)

/-- The state in which the command leaves Redis. -/
def execute (reply : Reply) (s s' : System ι α) : System ι α :=
  if reply.executed then s' else s

/-- The entries that a claim brings. -/
def validEntries (s : System ι α) (ids : List StreamId) : List (Entry α) :=
  s.log.entries.filter fun x => x.id ∈ ids

def reclaimed (valid : List (Entry α)) : Memory α :=
  ⟨if valid = [] then .idle else .counting valid, [], true⟩

def counted (s : System ι α) (valid : List (Entry α)) : List (StreamMessage α) :=
  valid.map fun x =>
    { x with deliveries := (Group.deliveryCounts s.group valid.length x.id).getD 1 }

section Step

variable [DecidableEq ι]

/-- The head of the batch goes to the handler or to the dead-letter stream. -/
def dispatch (opts : ConsumerOptions) (s : System ι α) (c : ι) (m : Memory α)
    (msg : StreamMessage α) : System ι α :=
  if msg.deliveries > opts.maxDeliveries then s.set c { m with work := .deadLettering msg }
  else
    { s.set c { m with work := .handling msg } with
      invoked := s.invoked ++ [⟨c, msg.id, s.delivered msg.id⟩] }

/-- The step of a running consumer. -/
def live (opts : ConsumerOptions) (s : System ι α) (c : ι) (m : Memory α) :
    Call → Option (System ι α)
  | .crash => some { s with consumers := Function.update s.consumers c none }
  | .reclaim idle reply =>
    match m with
    | ⟨.idle, [], false⟩ =>
      let ids := s.group.claimable idle opts.count
      some ((execute reply s (s.claim ids)).set c
        (if reply = .ok then reclaimed (validEntries s ids) else .restart))
    | _ => none
  | .count reply =>
    match m with
    | ⟨.counting valid, _, claimed⟩ =>
      some (s.set c (if reply = .ok then ⟨.idle, counted s valid, claimed⟩ else .restart))
    | _ => none
  | .readNew reply =>
    match m with
    | ⟨.idle, [], true⟩ =>
      some ((execute reply s (s.readNew opts.count)).set c
        (if reply = .ok then ⟨.idle, (s.group.readNew s.log opts.count).2, false⟩ else .restart))
    | _ => none
  | .dispatch =>
    match m with
    | ⟨.idle, msg :: batch, claimed⟩ => some (dispatch opts s c ⟨.idle, batch, claimed⟩ msg)
    | _ => none
  | .resolve =>
    match m with
    | ⟨.handling msg, batch, claimed⟩ =>
      some { s.set c ⟨.acking msg, batch, claimed⟩ with resolved := s.resolved ++ [msg.id] }
    | _ => none
  | .throw =>
    match m with
    | ⟨.handling _, batch, claimed⟩ => some (s.set c ⟨.idle, batch, claimed⟩)
    | _ => none
  | .deadLetter reply =>
    match m with
    | ⟨.deadLettering msg, batch, claimed⟩ =>
      some ((execute reply s (s.deadLetter opts msg)).set c
        (if reply = .ok then ⟨.deadAcking msg, batch, claimed⟩ else .restart))
    | _ => none
  | .ack reply =>
    match m with
    -- an error here is caught together with those of the handler
    | ⟨.acking msg, batch, claimed⟩ =>
      some ((execute reply s (s.ack msg.id)).set c ⟨.idle, batch, claimed⟩)
    | ⟨.deadAcking msg, batch, claimed⟩ =>
      some ((execute reply s (s.ack msg.id)).set c
        (if reply = .ok then ⟨.idle, batch, claimed⟩ else .restart))
    | _ => none
  | .start => none

def step (opts : ι → ConsumerOptions) (s : System ι α) : Action ι α → Option (System ι α)
  | .add entry => (s.log.add entry).map fun log => { s with log := log }
  | .of c call =>
    match s.consumers c, call with
    | none, .start => some (s.set c .restart)
    | none, _ => none
    | some m, call => live (opts c) s c m call

/-- What a step does, by the call and what the consumer awaits. -/
inductive Transition (opts : ι → ConsumerOptions) (s : System ι α) : Action ι α → System ι α → Prop
  | add {entry : Entry α} {log : Log α} (h : s.log.add entry = some log) :
      Transition opts s (.add entry) { s with log := log }
  | start {c : ι} (hdown : s.consumers c = none) : Transition opts s (.of c .start) (s.set c .restart)
  | crash {c : ι} : Transition opts s (.of c .crash)
      { s with consumers := Function.update s.consumers c none }
  | reclaim (idle : List StreamId) (reply : Reply) {c : ι}
      (hm : s.consumers c = some ⟨.idle, [], false⟩) :
      Transition opts s (.of c (.reclaim idle reply))
        ((execute reply s (s.claim (s.group.claimable idle (opts c).count))).set c
          (if reply = .ok then reclaimed (validEntries s (s.group.claimable idle (opts c).count))
            else .restart))
  | count (reply : Reply) {c : ι} {valid : List (Entry α)} {batch : List (StreamMessage α)}
      {claimed : Bool} (hm : s.consumers c = some ⟨.counting valid, batch, claimed⟩) :
      Transition opts s (.of c (.count reply))
        (s.set c (if reply = .ok then ⟨.idle, counted s valid, claimed⟩ else .restart))
  | readNew (reply : Reply) {c : ι} (hm : s.consumers c = some ⟨.idle, [], true⟩) :
      Transition opts s (.of c (.readNew reply))
        ((execute reply s (s.readNew (opts c).count)).set c
          (if reply = .ok then ⟨.idle, (s.group.readNew s.log (opts c).count).2, false⟩
            else .restart))
  | dispatch {c : ι} {msg : StreamMessage α} {batch : List (StreamMessage α)} {claimed : Bool}
      (hm : s.consumers c = some ⟨.idle, msg :: batch, claimed⟩) :
      Transition opts s (.of c .dispatch) (dispatch (opts c) s c ⟨.idle, batch, claimed⟩ msg)
  | resolve {c : ι} {msg : StreamMessage α} {batch : List (StreamMessage α)} {claimed : Bool}
      (hm : s.consumers c = some ⟨.handling msg, batch, claimed⟩) :
      Transition opts s (.of c .resolve)
        { s.set c ⟨.acking msg, batch, claimed⟩ with resolved := s.resolved ++ [msg.id] }
  | throw {c : ι} {msg : StreamMessage α} {batch : List (StreamMessage α)} {claimed : Bool}
      (hm : s.consumers c = some ⟨.handling msg, batch, claimed⟩) :
      Transition opts s (.of c .throw) (s.set c ⟨.idle, batch, claimed⟩)
  | deadLetter (reply : Reply) {c : ι} {msg : StreamMessage α} {batch : List (StreamMessage α)}
      {claimed : Bool} (hm : s.consumers c = some ⟨.deadLettering msg, batch, claimed⟩) :
      Transition opts s (.of c (.deadLetter reply))
        ((execute reply s (s.deadLetter (opts c) msg)).set c
          (if reply = .ok then ⟨.deadAcking msg, batch, claimed⟩ else .restart))
  | ack (reply : Reply) {c : ι} {msg : StreamMessage α} {batch : List (StreamMessage α)}
      {claimed : Bool} (hm : s.consumers c = some ⟨.acking msg, batch, claimed⟩) :
      Transition opts s (.of c (.ack reply))
        ((execute reply s (s.ack msg.id)).set c ⟨.idle, batch, claimed⟩)
  | deadAck (reply : Reply) {c : ι} {msg : StreamMessage α} {batch : List (StreamMessage α)}
      {claimed : Bool} (hm : s.consumers c = some ⟨.deadAcking msg, batch, claimed⟩) :
      Transition opts s (.of c (.ack reply))
        ((execute reply s (s.ack msg.id)).set c
          (if reply = .ok then ⟨.idle, batch, claimed⟩ else .restart))

theorem live_cases {opts : ι → ConsumerOptions} {s s' : System ι α} {c : ι} {m : Memory α}
    {call : Call} (hm : s.consumers c = some m) (h : live (opts c) s c m call = some s') :
    Transition opts s (.of c call) s' := by
  cases call with
  | start => cases h
  | crash =>
    obtain rfl := Option.some.inj h
    exact .crash
  | reclaim idle reply =>
    dsimp only [live] at h
    split at h
    · obtain rfl := Option.some.inj h
      exact .reclaim idle reply hm
    · cases h
  | count reply =>
    dsimp only [live] at h
    split at h
    · obtain rfl := Option.some.inj h
      exact .count reply hm
    · cases h
  | readNew reply =>
    dsimp only [live] at h
    split at h
    · obtain rfl := Option.some.inj h
      exact .readNew reply hm
    · cases h
  | dispatch =>
    dsimp only [live] at h
    split at h
    · obtain rfl := Option.some.inj h
      exact .dispatch hm
    · cases h
  | resolve =>
    dsimp only [live] at h
    split at h
    · obtain rfl := Option.some.inj h
      exact .resolve hm
    · cases h
  | throw =>
    dsimp only [live] at h
    split at h
    · obtain rfl := Option.some.inj h
      exact .throw hm
    · cases h
  | deadLetter reply =>
    dsimp only [live] at h
    split at h
    · obtain rfl := Option.some.inj h
      exact .deadLetter reply hm
    · cases h
  | ack reply =>
    dsimp only [live] at h
    split at h
    · obtain rfl := Option.some.inj h
      exact .ack reply hm
    · obtain rfl := Option.some.inj h
      exact .deadAck reply hm
    · cases h

theorem step_cases {opts : ι → ConsumerOptions} {s s' : System ι α} {a : Action ι α}
    (h : step opts s a = some s') : Transition opts s a s' := by
  cases a with
  | add entry =>
    obtain ⟨log, hlog, rfl⟩ := Option.map_eq_some_iff.mp h
    exact .add hlog
  | of c call =>
    dsimp only [step] at h
    split at h
    · next hdown =>
      obtain rfl := Option.some.inj h
      exact .start hdown
    · cases h
    · next m hm => exact live_cases hm h

end Step

/-! What the consumers hold -/

theorem execute_of {P : System ι α → Prop} (reply : Reply) {s s' : System ι α} (h : P s)
    (h' : P s') : P (execute reply s s') := by
  unfold execute
  split_ifs
  · exact h'
  · exact h

theorem execute_consumers {s s' : System ι α} {reply : Reply} (h : s'.consumers = s.consumers) :
    (execute reply s s').consumers = s.consumers :=
  execute_of (P := fun t => t.consumers = s.consumers) reply rfl h

/-- The property holds of every running consumer. -/
def Each (s : System ι α) (P : ι → Memory α → Prop) : Prop :=
  ∀ c m, s.consumers c = some m → P c m

theorem Each.imp {s : System ι α} {P Q : ι → Memory α → Prop} (h : Each s P)
    (hPQ : ∀ c m, s.consumers c = some m → P c m → Q c m) : Each s Q :=
  fun c m hm => hPQ c m hm (h c m hm)

theorem Each.set [DecidableEq ι] {s : System ι α} {P : ι → Memory α → Prop} {c : ι} {m : Memory α}
    (h : Each s P) (hm : P c m) : Each (s.set c m) P := by
  intro c' m' hm'
  rw [System.set_consumers] at hm'
  by_cases heq : c' = c
  · subst heq
    rw [Function.update_self] at hm'
    obtain rfl := Option.some.inj hm'
    exact hm
  · rw [Function.update_of_ne heq] at hm'
    exact h c' m' hm'

theorem Each.crash [DecidableEq ι] {s : System ι α} {P : ι → Memory α → Prop} {c : ι}
    (h : Each s P) : Each { s with consumers := Function.update s.consumers c none } P := by
  intro c' m' hm'
  dsimp only at hm'
  by_cases heq : c' = c
  · subst heq
    rw [Function.update_self] at hm'
    cases hm'
  · rw [Function.update_of_ne heq] at hm'
    exact h c' m' hm'

def Work.entries : Work α → List (Entry α)
  | .idle => []
  | .counting valid => valid
  | .handling msg => [msg.toEntry]
  | .acking msg => [msg.toEntry]
  | .deadLettering msg => [msg.toEntry]
  | .deadAcking msg => [msg.toEntry]

def Memory.entries (m : Memory α) : List (Entry α) :=
  m.work.entries ++ m.batch.map fun msg => msg.toEntry

theorem reclaimed_entries (valid : List (Entry α)) : (reclaimed valid).entries = valid := by
  unfold reclaimed Memory.entries
  dsimp only
  split_ifs with hvalid
  · exact hvalid.symm
  · exact List.append_nil valid

theorem counted_entries (s : System ι α) (valid : List (Entry α)) :
    (counted s valid).map (fun msg => msg.toEntry) = valid := by
  unfold counted
  rw [List.map_map]
  exact List.map_id valid

/-- The entry has been delivered to some consumer. -/
def Delivered (s : System ι α) (x : Entry α) : Prop :=
  x ∈ s.log.entries ∧ x.id ≤ s.group.lastDelivered

structure Sound (s : System ι α) : Prop where
  wellFormed : s.group.WellFormed
  held : Each s fun _ m => ∀ x ∈ m.entries, Delivered s x

theorem Sound.start {log : Log α} {group : Group} (h : group.WellFormed) :
    Sound (System.start log group : System ι α) :=
  ⟨h, fun _ _ hm => nomatch hm⟩

section Sound

variable {s : System ι α} {count : ℕ}

theorem Sound.claim (h : Sound s) (ids : List StreamId) : Sound (s.claim ids) :=
  ⟨h.wellFormed.claim, h.held⟩

theorem Sound.readNew (h : Sound s) (count : ℕ) : Sound (s.readNew count) :=
  ⟨h.wellFormed.readNew, h.held.imp fun _ _ _ hm x hx =>
    ⟨(hm x hx).1, (hm x hx).2.trans Group.readNew_lastDelivered_le⟩⟩

theorem Sound.ack (h : Sound s) (id : StreamId) : Sound (s.ack id) :=
  ⟨h.wellFormed.ack id, h.held⟩

theorem Sound.deadLetter (h : Sound s) (opts : ConsumerOptions) (msg : StreamMessage α) :
    Sound (s.deadLetter opts msg) :=
  ⟨h.wellFormed, h.held⟩

theorem Sound.valid (h : Sound s) {idle : List StreamId} {x : Entry α}
    (hx : x ∈ validEntries s (s.group.claimable idle count)) : Delivered s x := by
  obtain ⟨hlog, hclaimed⟩ := List.mem_filter.mp hx
  obtain ⟨p, hp, hid⟩ := List.mem_map.mp (Group.mem_claimable (of_decide_eq_true hclaimed))
  exact ⟨hlog, hid ▸ h.wellFormed.delivered p hp⟩

theorem delivered_batch {x : Entry α}
    (hx : x ∈ (Memory.mk Work.idle (s.group.readNew s.log count).2 false).entries) :
    Delivered (s.readNew count) x := by
  have hx : x ∈ (s.log.after s.group.lastDelivered).take count := by
    simpa only [Memory.entries, Work.entries, Group.readNew, List.nil_append, List.map_map,
      Function.comp_def, List.map_id'] using hx
  exact ⟨(Log.mem_after.mp (List.mem_of_mem_take hx)).1, Group.readNew_batch_le hx⟩

variable [DecidableEq ι] {c : ι} {m : Memory α}

theorem Sound.set (h : Sound s) (hm : ∀ x ∈ m.entries, Delivered s x) : Sound (s.set c m) :=
  ⟨h.wellFormed, h.held.set hm⟩

theorem Sound.restart (h : Sound s) : Sound (s.set c .restart) :=
  h.set fun _ hx => absurd hx List.not_mem_nil

/-- The consumer goes on with some of what it holds. -/
theorem Sound.keep (h : Sound s) (hm : s.consumers c = some m) (m' : Memory α)
    (hsub : m'.entries ⊆ m.entries) : Sound (s.set c m') :=
  h.set fun x hx => h.held c m hm x (hsub hx)

theorem sound_step {opts : ι → ConsumerOptions} {s s' : System ι α} {a : Action ι α}
    (h : step opts s a = some s') (hs : Sound s) : Sound s' := by
  cases step_cases h with
  | add hlog =>
    exact ⟨hs.wellFormed, hs.held.imp fun _ _ _ hm x hx =>
      ⟨(Log.mem_of_add hlog).mpr (Or.inl (hm x hx).1), (hm x hx).2⟩⟩
  | start hdown => exact hs.restart
  | crash => exact ⟨hs.wellFormed, hs.held.crash⟩
  | @reclaim idle reply c hm =>
    have hexec := execute_of reply hs (hs.claim (s.group.claimable idle (opts c).count))
    split_ifs with hreply
    · refine hexec.set fun x hx => ?_
      rw [reclaimed_entries] at hx
      subst hreply
      exact hs.valid hx
    · exact hexec.restart
  | @count reply c valid batch claimed hm =>
    split_ifs
    · refine hs.set fun x hx => hs.held c _ hm x (List.mem_append_left _ ?_)
      have hx : x ∈ (counted s valid).map fun msg => msg.toEntry := hx
      rwa [counted_entries] at hx
    · exact hs.restart
  | @readNew reply c hm =>
    have hexec := execute_of reply hs (hs.readNew (opts c).count)
    split_ifs with hreply
    · refine hexec.set fun x hx => ?_
      subst hreply
      exact delivered_batch hx
    · exact hexec.restart
  | @dispatch c msg batch claimed hm =>
    unfold dispatch
    split_ifs
    · exact hs.keep hm ⟨.deadLettering msg, batch, claimed⟩ fun x hx => hx
    · have hhandling := hs.keep hm ⟨.handling msg, batch, claimed⟩ fun x hx => hx
      exact ⟨hhandling.wellFormed, hhandling.held⟩
  | @resolve c msg batch claimed hm =>
    have hacking := hs.keep hm ⟨.acking msg, batch, claimed⟩ fun x hx => hx
    exact ⟨hacking.wellFormed, hacking.held⟩
  | throw hm => exact hs.keep hm _ fun x hx => List.mem_append_right _ hx
  | @deadLetter reply c msg batch claimed hm =>
    have hexec := execute_of reply hs (hs.deadLetter (opts c) msg)
    have hm' : (execute reply s (s.deadLetter (opts c) msg)).consumers c = _ :=
      (congrFun (execute_consumers (System.deadLetter_consumers ..)) c).trans hm
    split_ifs
    · exact hexec.keep hm' _ fun x hx => hx
    · exact hexec.restart
  | @ack reply c msg batch claimed hm =>
    have hexec := execute_of reply hs (hs.ack msg.id)
    have hm' : (execute reply s (s.ack msg.id)).consumers c = _ :=
      (congrFun (execute_consumers (System.ack_consumers ..)) c).trans hm
    exact hexec.keep hm' _ fun x hx => List.mem_append_right _ hx
  | @deadAck reply c msg batch claimed hm =>
    have hexec := execute_of reply hs (hs.ack msg.id)
    have hm' : (execute reply s (s.ack msg.id)).consumers c = _ :=
      (congrFun (execute_consumers (System.ack_consumers ..)) c).trans hm
    split_ifs
    · exact hexec.keep hm' _ fun x hx => List.mem_append_right _ hx
    · exact hexec.restart

end Sound

end StreamConsumer

end Perps
