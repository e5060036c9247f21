import Perps.Ws.Server

/-! What a socket is sent. The topics that the server keeps and the channel set that
backfill tests stay in step over any messages, so both paths send the same events, and
private ones only to their user. -/

namespace Perps

open Lib

namespace Ws

/-- The user that an event is private to. -/
def privateUser : DraftOutput → Option String
  | .orderAccepted p => some p.userId
  | .orderRejected p => some p.userId
  | .orderCancelled p => some p.userId
  | .balanceUpdated p => some p.userId
  | .positionUpdated p => some p.userId
  | .positionLiquidated p => some p.userId
  | .tradeExecuted _ => none
  | .orderBookDelta _ => none
  | .orderBookSnapshot _ => none
  | .commandRejected _ => none

theorem topicsFor_private {evt : EngineOutputEvent} {uid : String}
    (h : privateUser evt.payload = some uid) :
    topicsFor evt = if uid = "" then [] else [userTopic uid] := by
  unfold topicsFor
  cases hp : evt.payload <;> simp only [hp, privateUser, Option.some.injEq, reduceCtorEq] at h ⊢ <;>
    rw [h]

/-! Topics -/

theorem userTopic_inj {a b : String} (h : userTopic a = userTopic b) : a = b :=
  (String.append_right_inj "user:").mp h

theorem userTopic_ne_name {uid : String} {ch : Channel} (hch : ch ≠ .user) :
    userTopic uid ≠ ch.name := by
  intro h
  have hchars := congrArg String.toList h
  unfold userTopic at hchars
  cases ch with
  | user => exact hch rfl
  | orderbook => simp [Channel.name] at hchars
  | trades => simp [Channel.name] at hchars

theorem SocketData.topic_of_ne {data : SocketData} {ch : Channel} (hch : ch ≠ .user) :
    data.topic ch = ch.name := by
  cases ch with
  | user => exact absurd rfl hch
  | orderbook => rfl
  | trades => rfl

theorem SocketData.topic_congr {data data' : SocketData} (h : data.userId = data'.userId)
    (ch : Channel) : data.topic ch = data'.topic ch := by
  cases ch with
  | user => exact congrArg (fun id : Option String => userTopic (id.getD "null")) h
  | orderbook => rfl
  | trades => rfl

theorem SocketData.topic_inj {data : SocketData} {ch ch' : Channel}
    (h : data.topic ch = data.topic ch') : ch = ch' := by
  by_cases hch : ch = .user
  · by_cases hch' : ch' = .user
    · exact hch.trans hch'.symm
    · rw [hch, topic_of_ne hch'] at h
      exact absurd h (userTopic_ne_name hch')
  · rw [topic_of_ne hch] at h
    by_cases hch' : ch' = .user
    · rw [hch'] at h
      exact absurd h.symm (userTopic_ne_name hch)
    · rw [topic_of_ne hch'] at h
      revert h
      cases ch <;> cases ch' <;> simp [Channel.name]

/-- An event is deliverable if the topic of one of the channels is among its topics. -/
theorem deliverable_iff {data : SocketData} {evt : EngineOutputEvent} :
    deliverable data evt = true ↔
      ∃ topic ∈ topicsFor evt, ∃ ch ∈ data.channels, topic = data.topic ch := by
  unfold deliverable
  rw [List.any_eq_true]
  refine exists_congr fun topic => and_congr_right fun _ => ?_
  rw [decide_eq_true_iff]
  constructor
  · rintro (⟨rfl, hch⟩ | ⟨rfl, hch⟩ | ⟨rfl, hch⟩)
    · exact ⟨.orderbook, hch, rfl⟩
    · exact ⟨.trades, hch, rfl⟩
    · exact ⟨.user, hch, rfl⟩
  · rintro ⟨ch, hch, rfl⟩
    cases ch with
    | orderbook => exact Or.inl ⟨rfl, hch⟩
    | trades => exact Or.inr (Or.inl ⟨rfl, hch⟩)
    | user => exact Or.inr (Or.inr ⟨rfl, hch⟩)

theorem deliverable_mono {data : SocketData} {channels : List Channel} (h : channels ⊆ data.channels)
    {evt : EngineOutputEvent} (hd : deliverable { data with channels := channels } evt = true) :
    deliverable data evt = true := by
  obtain ⟨topic, htopic, ch, hch, heq⟩ := deliverable_iff.mp hd
  exact deliverable_iff.mpr ⟨topic, htopic, ch, h hch, heq⟩

/-- The frames that an entry makes for a socket. -/
def framesOf (data : SocketData) (e : OutputEntry) : List Frame :=
  match decodeOutputEvent e.data with
  | none => []
  | some evt => if deliverable data evt then [.event e.id evt] else []

/-! The socket -/

/-- The topics are those of the channels, and only a user has the channel `user`. -/
structure InStep (s : Socket) : Prop where
  topics : ∀ topic, topic ∈ s.topics ↔ ∃ ch ∈ s.data.channels, topic = s.data.topic ch
  user : .user ∈ s.data.channels → ∃ uid, s.data.userId = some uid ∧ uid ≠ ""

/-- The live path sends the event if and only if backfill would. -/
def PathsAgree (s : Socket) : Prop :=
  ∀ evt, (∃ topic ∈ topicsFor evt, topic ∈ s.topics) ↔ deliverable s.data evt = true

/-- Both paths do the same with an entry: they send its event if it is deliverable at
that moment, and nothing else. -/
def PathsSend (s : Socket) : Prop :=
  ∀ m, s.fanOut m = s.backfillEntry m ∧
    (decodeOutputEvent m.data = none → (s.fanOut m).sent = s.sent) ∧
    ∀ evt ∈ decodeOutputEvent m.data,
      (s.fanOut m).sent = if deliverable s.data evt then s.sent ++ [.event m.id evt] else s.sent

/-- The private events that have been sent are those of the socket's user. -/
def OwnEvents (s : Socket) : Prop :=
  ∀ id evt, .event id evt ∈ s.sent → ∀ uid ∈ privateUser evt.payload, s.data.userId = some uid

theorem mem_insert {α : Type} [DecidableEq α] {x y : α} {xs : List α} :
    y ∈ Socket.insert x xs ↔ y ∈ xs ∨ y = x := by
  unfold Socket.insert
  split_ifs with h
  · refine ⟨Or.inl, fun hy => hy.elim id ?_⟩
    rintro rfl
    exact h
  · rw [List.mem_append, List.mem_singleton]

theorem mem_delete {α : Type} [DecidableEq α] {x y : α} {xs : List α} :
    y ∈ Socket.delete x xs ↔ y ∈ xs ∧ y ≠ x := by
  unfold Socket.delete
  rw [List.mem_filter, decide_eq_true_iff]

section Socket

variable {s : Socket}

theorem InStep.pathsAgree (h : InStep s) : PathsAgree s := by
  intro evt
  rw [deliverable_iff]
  exact exists_congr fun topic => and_congr_right fun _ => h.topics topic

theorem InStep.own (h : InStep s) {evt : EngineOutputEvent} (hd : deliverable s.data evt = true)
    {uid : String} (huid : privateUser evt.payload = some uid) : s.data.userId = some uid := by
  obtain ⟨topic, htopic, ch, hch, rfl⟩ := deliverable_iff.mp hd
  rw [topicsFor_private huid] at htopic
  split_ifs at htopic with hempty
  · cases htopic
  · have heq := List.mem_singleton.mp htopic
    by_cases huser : ch = .user
    · subst huser
      obtain ⟨uid', hdata, -⟩ := h.user hch
      have hinj : s.data.userId.getD "null" = uid := userTopic_inj heq
      rw [hdata, Option.getD_some] at hinj
      rw [hdata, hinj]
    · rw [SocketData.topic_of_ne huser] at heq
      exact absurd heq.symm (userTopic_ne_name huser)

theorem InStep.subscribeChannel (h : InStep s) (ch : Channel) : InStep (s.subscribeChannel ch) := by
  unfold Socket.subscribeChannel
  split_ifs with hauth
  · exact ⟨h.topics, h.user⟩
  · refine ⟨fun topic => ?_, fun huser => ?_⟩
    · dsimp only
      rw [mem_insert, h.topics]
      constructor
      · rintro (⟨ch', hch', rfl⟩ | rfl)
        · exact ⟨ch', mem_insert.mpr (Or.inl hch'), SocketData.topic_congr rfl ch'⟩
        · exact ⟨ch, mem_insert.mpr (Or.inr rfl), SocketData.topic_congr rfl ch⟩
      · rintro ⟨ch', hch', rfl⟩
        rcases mem_insert.mp hch' with hch' | rfl
        · exact Or.inl ⟨ch', hch', SocketData.topic_congr rfl ch'⟩
        · exact Or.inr (SocketData.topic_congr rfl ch')
    · rcases mem_insert.mp huser with huser | rfl
      · exact h.user huser
      · cases hid : s.data.userId with
        | none => exact absurd ⟨rfl, by rw [hid]; rfl⟩ hauth
        | some uid => exact ⟨uid, rfl, fun hempty => hauth ⟨rfl, by rw [hid]; exact hempty⟩⟩

theorem InStep.unsubscribeChannel (h : InStep s) (ch : Channel) :
    InStep (s.unsubscribeChannel ch) := by
  refine ⟨fun topic => ?_, fun huser => h.user (mem_delete.mp huser).1⟩
  dsimp only [Socket.unsubscribeChannel]
  rw [mem_delete, h.topics]
  constructor
  · rintro ⟨⟨ch', hch', rfl⟩, hne⟩
    refine ⟨ch', mem_delete.mpr ⟨hch', ?_⟩, SocketData.topic_congr rfl ch'⟩
    rintro rfl
    exact hne rfl
  · rintro ⟨ch', hch', rfl⟩
    obtain ⟨hmem, hne⟩ := mem_delete.mp hch'
    have htopic : s.data.topic ch' = (s.unsubscribeChannel ch).data.topic ch' :=
      SocketData.topic_congr rfl ch'
    exact ⟨⟨ch', hmem, htopic.symm⟩, fun heq => hne (SocketData.topic_inj (htopic.trans heq))⟩

theorem topicsFor_cases (evt : EngineOutputEvent) :
    topicsFor evt = [] ∨ ∃ topic, topicsFor evt = [topic] := by
  unfold topicsFor
  cases evt.payload <;> dsimp only <;> first | exact Or.inr ⟨_, rfl⟩ | exact Or.inl rfl | split_ifs
  all_goals first | exact Or.inl rfl | exact Or.inr ⟨_, rfl⟩

/-- Both paths do the same with an entry. -/
theorem InStep.fanOut_eq (h : InStep s) (m : OutputEntry) : s.fanOut m = s.backfillEntry m := by
  unfold Socket.fanOut Socket.backfillEntry
  cases decodeOutputEvent m.data with
  | none => rfl
  | some evt =>
    have hagree := h.pathsAgree evt
    dsimp only
    rcases topicsFor_cases evt with hnone | ⟨topic, hone⟩
    · rw [hnone] at hagree ⊢
      rw [if_neg fun hd => ?_]
      · rfl
      · obtain ⟨topic, htopic, -⟩ := hagree.mpr hd
        cases htopic
    · rw [hone] at hagree ⊢
      have hiff : topic ∈ s.topics ↔ deliverable s.data evt = true := by
        rw [← hagree]
        simp only [List.mem_singleton, exists_eq_left]
      simp only [List.foldl_cons, List.foldl_nil, Socket.publish, hiff]

theorem backfillEntry_eq (s : Socket) (e : OutputEntry) :
    s.backfillEntry e = { s with sent := s.sent ++ framesOf s.data e } := by
  unfold Socket.backfillEntry framesOf
  cases decodeOutputEvent e.data with
  | none => simp
  | some evt =>
    dsimp only
    split_ifs
    · rfl
    · simp

theorem foldl_backfillEntry (s : Socket) (entries : List OutputEntry) :
    entries.foldl Socket.backfillEntry s =
      { s with sent := s.sent ++ entries.flatMap (framesOf s.data) } := by
  induction entries generalizing s with
  | nil => simp
  | cons e entries ih =>
    rw [List.foldl_cons, ih, backfillEntry_eq, List.flatMap_cons]
    simp

theorem InStep.foldl_fanOut (h : InStep s) (ms : List OutputEntry) :
    ms.foldl Socket.fanOut s = ms.foldl Socket.backfillEntry s := by
  induction ms generalizing s with
  | nil => rfl
  | cons m ms ih =>
    rw [List.foldl_cons, List.foldl_cons, h.fanOut_eq]
    apply ih
    rw [backfillEntry_eq]
    exact ⟨h.topics, h.user⟩

theorem InStep.pathsSend (h : InStep s) : PathsSend s := by
  intro m
  rw [h.fanOut_eq, backfillEntry_eq]
  refine ⟨rfl, fun hnone => ?_, fun evt hevt => ?_⟩
  · simp only [framesOf, hnone, List.append_nil]
  · simp only [framesOf, Option.mem_def.mp hevt]
    split_ifs
    · rfl
    · exact List.append_nil _

end Socket

structure Confined (s : Socket) : Prop extends InStep s where
  sent : OwnEvents s

section Confined

variable {s : Socket}

theorem Confined.send (h : Confined s) (frame : Frame) (hframe : ∀ id evt, frame = .event id evt →
    ∀ uid ∈ privateUser evt.payload, s.data.userId = some uid) : Confined (s.send frame) := by
  refine ⟨⟨h.topics, h.user⟩, fun id evt hmem => ?_⟩
  rcases List.mem_append.mp hmem with hmem | hmem
  · exact h.sent id evt hmem
  · exact hframe id evt (List.mem_singleton.mp hmem).symm

theorem Confined.subscribeChannel (h : Confined s) (ch : Channel) :
    Confined (s.subscribeChannel ch) := by
  refine ⟨h.toInStep.subscribeChannel ch, ?_⟩
  unfold Socket.subscribeChannel
  split_ifs
  · exact (h.send (.error _) fun _ _ heq => nomatch heq).sent
  · exact h.sent

theorem Confined.unsubscribeChannel (h : Confined s) (ch : Channel) :
    Confined (s.unsubscribeChannel ch) :=
  ⟨h.toInStep.unsubscribeChannel ch, h.sent⟩

theorem Confined.message (h : Confined s) (msg : Option ClientMessage) : Confined (s.message msg) := by
  cases msg with
  | none => exact h.send (.error _) fun _ _ heq => nomatch heq
  | some msg =>
    unfold Socket.message
    dsimp only
    split_ifs
    · have hchannels : Confined ((Socket.requested msg).foldl Socket.subscribeChannel s) :=
        List.foldlRecOn _ _ h fun _ hs ch _ => hs.subscribeChannel ch
      have hreply := hchannels.send
        (.subscribed ((Socket.requested msg).foldl Socket.subscribeChannel s).data.channels)
        fun _ _ heq => nomatch heq
      unfold Socket.subscribe
      dsimp only
      cases msg.sinceId with
      | none => exact hreply
      | some sinceId => exact ⟨⟨hreply.topics, hreply.user⟩, hreply.sent⟩
    · have hchannels : Confined ((Socket.requested msg).foldl Socket.unsubscribeChannel s) :=
        List.foldlRecOn _ _ h fun _ hs ch _ => hs.unsubscribeChannel ch
      exact hchannels.send (.unsubscribed _) fun _ _ heq => nomatch heq
    · exact h

theorem Confined.backfillEntry (h : Confined s) (e : OutputEntry) : Confined (s.backfillEntry e) := by
  unfold Socket.backfillEntry
  cases decodeOutputEvent e.data with
  | none => exact h
  | some evt =>
    dsimp only
    split_ifs with hd
    · refine h.send _ fun id evt' heq uid huid => ?_
      obtain ⟨-, rfl⟩ := Frame.event.inj heq
      exact h.own hd huid
    · exact h

theorem Confined.fanOut (h : Confined s) (m : OutputEntry) : Confined (s.fanOut m) := by
  rw [h.fanOut_eq]
  exact h.backfillEntry m

theorem Confined.open (userId : Option String) : Confined (.open userId) := by
  have hnew : Confined ⟨⟨userId, []⟩, [], [], []⟩ := by
    refine ⟨⟨fun topic => ⟨fun h => absurd h List.not_mem_nil, ?_⟩,
      fun h => absurd h List.not_mem_nil⟩, fun _ _ h => absurd h List.not_mem_nil⟩
    rintro ⟨ch, hch, -⟩
    exact absurd hch List.not_mem_nil
  exact hnew.send (.welcome userId.isSome) fun _ _ heq => nomatch heq

theorem Confined.backfill (h : Confined s) (entries : List OutputEntry) :
    Confined (entries.foldl Socket.backfillEntry s) :=
  List.foldlRecOn _ _ h fun _ hs e _ => hs.backfillEntry e

theorem Confined.with_backfills (h : Confined s) (backfills : List Backfill) :
    Confined { s with backfills := backfills } :=
  ⟨⟨h.topics, h.user⟩, h.sent⟩

end Confined

theorem confined_step {ι : Type} [DecidableEq ι] {s s' : Server ι} {a : Action ι}
    (h : step s a = some s') (hs : Each s Confined) : Each s' Confined := by
  cases step_cases h with
  | append hadd => exact hs
  | «open» userId hc => exact hs.set (.open userId)
  | message msg hc => exact hs.set ((hs _ _ hc).message msg)
  | close => exact hs.close
  | fetch hc hi => exact hs.set ((hs _ _ hc).with_backfills _)
  | finish hc hi => exact hs.set (((hs _ _ hc).backfill _).with_backfills _)
  | read hcall => exact hs
  | receive hcall hlast =>
    intro c socket' hc'
    obtain ⟨socket, hc, rfl⟩ := Option.map_eq_some_iff.mp hc'
    exact List.foldlRecOn _ _ (hs c socket hc) fun _ hs m _ => hs.fanOut m
  | timeout hcall => exact hs

theorem each_start {ι : Type} (output : OutputLog) (P : Socket → Prop) :
    Each (.start output : Server ι) P :=
  fun _ _ hc => nomatch hc

/-- What the next step sends, if it ends the reader's wait or that of a backfill: the
deliverable events of the entries that it has got. -/
structure StepSends {ι : Type} [DecidableEq ι] (s : Server ι) : Prop where
  live : ∀ s', step s .receive = some s' → ∀ id ∈ s.call, ∀ c, ∀ socket ∈ s.sockets c,
    (s'.sockets c).map Socket.sent =
      some (socket.sent ++ ((s.output.after id).take 200).flatMap (framesOf socket.data))
  backfill : ∀ c i s', step s (.finish c i) = some s' → ∀ socket ∈ s.sockets c,
    ∀ b ∈ socket.backfills[i]?, ∀ entries, b.stage = .fetched entries →
      (s'.sockets c).map Socket.sent =
        some (socket.sent ++ entries.flatMap (framesOf socket.data))

theorem stepSends {ι : Type} [DecidableEq ι] {s : Server ι} (h : Each s Confined) :
    StepSends s where
  live s' hstep id hid c socket hsocket := by
    cases step_cases hstep with
    | receive hcall hlast =>
      obtain rfl := Option.some.inj (hcall.symm.trans hid)
      dsimp only
      rw [Option.mem_def.mp hsocket, Option.map_some, Option.map_some,
        (h c socket hsocket).foldl_fanOut, foldl_backfillEntry]
  backfill c i s' hstep socket hsocket b hb entries hstage := by
    cases step_cases hstep with
    | finish hc hi =>
      obtain rfl := Option.some.inj (hc.symm.trans hsocket)
      obtain rfl := Option.some.inj (hi.symm.trans hb)
      obtain rfl := Stage.fetched.inj hstage
      dsimp only [Server.set]
      rw [Function.update_self, Option.map_some, foldl_backfillEntry]

/-- In every run, both paths agree on every event and send it if it is deliverable, and no
socket is sent another user's private events. -/
theorem runs_confined {ι : Type} [DecidableEq ι] (output : OutputLog) (as : List (Action ι))
    (s : Server ι) (hrun : runs step (.start output) as = some s) :
    Each s (fun socket => PathsAgree socket ∧ PathsSend socket ∧ OwnEvents socket) ∧
      StepSends s := by
  have hconfined := runs_invariant (fun _ _ _ _ hstep hs => confined_step hstep hs)
    (each_start output Confined) (.of_forall (C := fun _ _ => True) _ (fun _ _ => trivial) _ as) hrun
  exact ⟨hconfined.imp fun _ h => ⟨h.pathsAgree, h.pathsSend, h.sent⟩, stepSends hconfined⟩

namespace Fixture

def event (payload : DraftOutput) : EngineOutputEvent :=
  ⟨⟨"id", 0, "engine", 1, none, none, none⟩, payload⟩

def entry (ms : ℕ) (payload : DraftOutput) : OutputEntry := ⟨⟨ms, 0⟩, some (event payload)⟩

def aliceBalance : DraftOutput := .balanceUpdated ⟨"alice", 10, 10, 0⟩

/-- The first socket is that of a user, the second has none and asks for the same channels.
Each has a backfill of its own, and the reader has not got the entries yet. -/
def privateRun : List (Action Bool) :=
  [.open false (some "alice"), .open true none, .read,
    .message false (some ⟨some "subscribe", some ["user", "orderbook"], some ⟨0, 0⟩⟩),
    .message true (some ⟨some "subscribe", some ["user", "orderbook", "x"], none⟩),
    .append (entry 1 aliceBalance), .append (entry 2 (.balanceUpdated ⟨"bob", 5, 5, 0⟩)),
    .fetch false 0, .finish false 0, .message true (some ⟨some "unsubscribe", some ["user"], none⟩),
    .message true (some ⟨some "subscribe", some ["user"], some ⟨0, 0⟩⟩), .fetch true 0,
    .finish true 0]

/-- How often each socket has been sent the balance. -/
def balanceFrames (s : Server Bool) (c : Bool) : Option ℕ :=
  (s.sockets c).map fun socket => socket.sent.count (.event ⟨1, 0⟩ (event aliceBalance))

end Fixture

open Ws.Fixture in
/-- The user is sent the balance by backfill and then live, the other socket never. -/
theorem runs_confined_private : ∃ s s', runs step (.start .empty) privateRun = some s ∧
    step s .receive = some s' ∧
    (balanceFrames s false = some 1 ∧ balanceFrames s' false = some 2) ∧
    (balanceFrames s true = some 0 ∧ balanceFrames s' true = some 0) ∧
    Each s (fun socket => PathsAgree socket ∧ PathsSend socket ∧ OwnEvents socket) ∧
      StepSends s := by
  have hsome : ((runs step (.start .empty) privateRun).bind fun s => (step s .receive).filter
      fun s' => (balanceFrames s false = some 1 ∧ balanceFrames s' false = some 2) ∧
        balanceFrames s true = some 0 ∧ balanceFrames s' true = some 0).isSome := by
    decide +kernel
  obtain ⟨s', hs'⟩ := Option.isSome_iff_exists.mp hsome
  obtain ⟨s, hs, hs'⟩ := Option.bind_eq_some_iff.mp hs'
  obtain ⟨hstep, hframes⟩ := Option.filter_eq_some_iff.mp hs'
  obtain ⟨hfirst, hsecond⟩ := of_decide_eq_true hframes
  exact ⟨s, s', hs, hstep, hfirst, hsecond, runs_confined _ privateRun s hs⟩

end Ws

end Perps
