import Perps.Runtime.Recovery

/-! The state of a live engine against the fold of the log. As long as every event
that is processed follows the last one in the log, with nothing new in between, and
every recovery ends on an event, the engine is the fold up to its last input id, and
so is every snapshot. -/

namespace Perps

open Lib Engine

namespace EngineRuntime

/-- The event comes next in the log, apart from commands that were applied before,
or it is once more the last one. -/
def ComesNext (log : InputLog) (t : EngineState) (id : StreamId) (e : EngineInputEvent) : Prop :=
  (t.lastInputId < id ∧ ∀ x ∈ log.between t.lastInputId id, ∀ e' ∈ decodeInputEvent x.data,
    alreadyApplied t e' = true) ∨
  (id = t.lastInputId ∧ alreadyApplied t e = true)

/-- The log is empty, or its last entry decodes. -/
def EndsOnEvent (log : InputLog) : Prop :=
  ∀ x ∈ log.entries.getLast?, (decodeInputEvent x.data).isSome

/-- If the handler goes on to process the event, the event comes next. A recovery ends on
an entry that decodes, if it reads any. -/
def HandledInOrder (cfg : Config) (s : System) : Action → Prop
  | .dispatch => ∀ m ∈ s.memory, ∀ p ∈ processing cfg m, ComesNext s.log m.engine p.1.id p.2
  | .recover _ => EndsOnEvent s.log
  | _ => True

instance (log : InputLog) (t : EngineState) (id : StreamId) (e : EngineInputEvent) :
    Decidable (ComesNext log t id e) :=
  inferInstanceAs (Decidable ((_ ∧ _) ∨ (_ ∧ _)))

instance (log : InputLog) : Decidable (EndsOnEvent log) :=
  inferInstanceAs (Decidable (∀ x ∈ log.entries.getLast?, _))

instance (cfg : Config) (s : System) : (a : Action) → Decidable (HandledInOrder cfg s a)
  | .dispatch => inferInstanceAs (Decidable (∀ m ∈ s.memory, ∀ p ∈ processing cfg m, _))
  | .recover _ => inferInstanceAs (Decidable (EndsOnEvent s.log))
  | .add _ | .crash | .readNew _ | .reclaim _ _ | .publish _ | .ack _ | .deadLetter _
  | .saveSnapshot _ _ => inferInstanceAs (Decidable True)

/-- An engine rebuilt from the snapshot that replays the entries after it is the fold of
the log. A replay also passes entries at the end that do not decode. -/
def Resumes (market : MarketConfig) (log : InputLog) (snapshot : SerializedState) : Prop :=
  ∃ u ∈ fromSnapshot snapshot, let t := replay u (log.after u.lastInputId)
    serialize t = { serialize (foldOf market log.entries) with lastInputId := log.lastId } ∧
      (EndsOnEvent log → serialize t = serialize (foldOf market log.entries))

/-- The engine is the fold over the entries up to its last input id that decode. -/
structure IsReplayed (market : MarketConfig) (log : InputLog) (t : EngineState) : Prop where
  state : serialize t = serialize (foldOf market (log.through t.lastInputId))
  resumes : Resumes market log (Engine.snapshot t)

/-- The id is 0 or that of an entry that decodes. -/
def MarksEvent (log : InputLog) (id : StreamId) : Prop :=
  id = .zero ∨ ∃ x ∈ log.entries, x.id = id ∧ (decodeInputEvent x.data).isSome

theorem MarksEvent.marks {log : InputLog} {id : StreamId} (h : MarksEvent log id) : log.Marks id :=
  h.imp_right fun ⟨x, hx, hid, _⟩ => ⟨x, hx, hid⟩

theorem EndsOnEvent.marksEvent {log : InputLog} (h : EndsOnEvent log) :
    MarksEvent log log.lastId := by
  unfold Log.lastId
  cases hlast : log.entries.getLast? with
  | none => exact Or.inl rfl
  | some x => exact Or.inr ⟨x, List.mem_of_getLast? hlast, rfl, h x hlast⟩

theorem MarksEvent.foldOf_lastInputId {market : MarketConfig} {log : InputLog} {id : StreamId}
    (h : MarksEvent log id) : (foldOf market (log.through id)).lastInputId = id := by
  rcases h with rfl | ⟨x, hx, rfl, hdec⟩
  · rw [log.through_zero]
    rfl
  · obtain ⟨e, he⟩ := Option.isSome_iff_exists.mp hdec
    rw [Log.through_eq hx, foldOf_append, decoded_event he]
    exact process_lastInputId _ e x.id

/-- Up to an event, what is alike is equal once serialized. -/
theorem MarksEvent.serialize_eq {market : MarketConfig} {log : InputLog} {t : EngineState}
    (h : MarksEvent log t.lastInputId)
    (halike : Alike 0 OrdMap.AnyOrder (foldOf market (log.through t.lastInputId)) t) :
    serialize t = serialize (foldOf market (log.through t.lastInputId)) := by
  have hid : (foldOf market (log.through t.lastInputId)).lastInputId = t.lastInputId :=
    h.foldOf_lastInputId
  rw [serialize_alike halike]
  nth_rewrite 2 [← hid]
  rfl

/-- The invariant of the engine and of the saved ones. -/
structure Follows (market : MarketConfig) (log : InputLog) (t : EngineState) : Prop where
  marks : MarksEvent log t.lastInputId
  alike : Alike 0 OrdMap.AnyOrder (foldOf market (log.through t.lastInputId)) t

section Follows

variable {market : MarketConfig} {log : InputLog} {t : EngineState}

theorem Follows.createState (market : MarketConfig) (log : InputLog) :
    Follows market log (createState market) := by
  refine ⟨Or.inl rfl, ?_⟩
  have hempty : log.through (Perps.createState market).lastInputId = [] := log.through_zero
  rw [hempty]
  exact (SameUpToOrder.refl _).alike

theorem Follows.add {log' : InputLog} {x : InputEntry} (h : Follows market log t)
    (hadd : log.add x = some log') : Follows market log' t := by
  refine ⟨h.marks.imp_right ?_, ?_⟩
  · rintro ⟨y, hy, hid⟩
    exact ⟨y, (Log.mem_of_add hadd).mpr (Or.inl hy), hid⟩
  · rw [Log.through_add h.marks.marks hadd]
    exact h.alike

theorem Follows.same {u : EngineState} (h : Follows market log t) (hu : SameUpToOrder t u) :
    Follows market log u := by
  have hid := hu.lastInputId
  refine ⟨hid ▸ h.marks, ?_⟩
  rw [hid]
  exact h.alike.then_same hu

/-- A recovery ends at the end of the log. -/
theorem Follows.replayed (h : Follows market log t) :
    (replay t (log.after t.lastInputId)).lastInputId = log.lastId ∧
      Alike 0 OrdMap.AnyOrder (foldOf market log.entries) (replay t (log.after t.lastInputId)) :=
  ⟨(replay_lastInputId _ _).trans h.marks.marks.last_after, replay_after h.alike⟩

theorem Follows.recovered (h : Follows market log t) (hend : EndsOnEvent log) :
    Follows market log (replay t (log.after t.lastInputId)) := by
  obtain ⟨hid, halike⟩ := h.replayed
  refine ⟨hid ▸ hend.marksEvent, ?_⟩
  rw [hid, log.through_lastId]
  exact halike

theorem Follows.isReplayed (h : Follows market log t) : IsReplayed market log t where
  state := h.marks.serialize_eq h.alike
  resumes := by
    obtain ⟨u, hu, hsame⟩ := restore_same t
    have hfollows := h.same hsame
    obtain ⟨hid, halike⟩ := hfollows.replayed
    refine ⟨u, restore_eq t ▸ hu, ?_, fun hend => ?_⟩
    · rw [serialize_alike halike, hid]
    · have hrec := hfollows.recovered hend
      have hser := hrec.marks.serialize_eq hrec.alike
      rwa [hid, log.through_lastId] at hser

/-- Commands that were applied before leave no trace but the id. -/
theorem run_applied {s : EngineState} {evs : List (EngineInputEvent × StreamId)}
    (h : ∀ x ∈ evs, alreadyApplied s x.1 = true) :
    ∃ id, (run s evs).1 = { s with lastInputId := id } := by
  induction evs generalizing s with
  | nil => exact ⟨s.lastInputId, rfl⟩
  | cons x xs ih =>
    have hx := process_applied (h x List.mem_cons_self) x.2
    obtain ⟨id, hid⟩ := @ih { s with lastInputId := x.2 } fun y hy => h y (List.mem_cons_of_mem _ hy)
    refine ⟨id, ?_⟩
    rw [run_cons, hx]
    exact hid

theorem Follows.processed (h : Follows market log t) {x : InputEntry} (hx : x ∈ log.entries)
    {e : EngineInputEvent} (he : decodeInputEvent x.data = some e)
    (hnext : ComesNext log t x.id e) :
    Follows market log (process t e x.id).1 ∧ t.lastInputId ≤ x.id := by
  rcases hnext with ⟨hlt, hbetween⟩ | ⟨hid, happlied⟩
  · refine ⟨⟨?_, ?_⟩, hlt.le⟩
    · rw [process_lastInputId]
      exact Or.inr ⟨x, hx, rfl, by rw [he]; rfl⟩
    · have hskip : ∀ y ∈ decoded (log.between t.lastInputId x.id),
          alreadyApplied (foldOf market (log.through t.lastInputId)) y.1 = true := by
        intro y hy
        obtain ⟨z, hz, hdec, -⟩ := mem_decoded.mp hy
        rw [← alreadyApplied_alike h.alike]
        exact hbetween z hz y.1 hdec
      obtain ⟨id, hrun⟩ := run_applied hskip
      have hbefore : Alike 0 OrdMap.AnyOrder (foldOf market (log.before x.id)) t := by
        rw [← log.through_append_between hlt, foldOf_append, hrun]
        exact alike_lastInputId h.alike id t.lastInputId
      rw [process_lastInputId, Log.through_eq hx, foldOf_append, decoded_event he]
      exact process_alike hbefore (keysOK_foldOf market _) e x.id
  · rw [process_applied happlied, hid]
    exact ⟨h, le_rfl⟩

end Follows

/-! Runs -/

/-- Every engine, running or saved, follows the log. -/
structure AllFollow (cfg : Config) (s : System) : Prop where
  running : ∀ m ∈ s.memory, Follows cfg.market s.log m.engine
  saved : ∀ f ∈ s.files, ∃ t, IsSave cfg f t ∧ Follows cfg.market s.log t
  fromLog : FromLog s

theorem AllFollow.init (cfg : Config) : AllFollow cfg .init :=
  ⟨fun _ hm => (nomatch hm), fun _ hf => (nomatch hf), fromLog_init⟩

section Step

variable {cfg : Config} {s s' : System} {a : Action}

/-- Handling a message in order. -/
theorem AllFollow.dispatched (hs : AllFollow cfg s) (hC : HandledInOrder cfg s .dispatch)
    {m : Memory} {msg : InputMessage} {batch : List InputMessage} (hm : s.memory = some m)
    (hbatch : m.batch = msg :: batch) :
    Follows cfg.market s.log (dispatch cfg { m with batch := batch } msg).engine ∧
      m.engine.lastInputId ≤ (dispatch cfg { m with batch := batch } msg).engine.lastInputId := by
  have hfollows := hs.running m hm
  have hmem : msg.toEntry ∈ s.log.entries :=
    hs.fromLog m hm msg (Or.inl (hbatch ▸ List.mem_cons_self))
  rcases dispatch_cases cfg hbatch with
    ⟨-, -, heq⟩ | ⟨-, -, heq⟩ | ⟨-, -, heq⟩ | ⟨e, he, hp, heq⟩
  · rw [heq]
    exact ⟨hfollows, le_rfl⟩
  · rw [heq]
    exact ⟨hfollows, le_rfl⟩
  · rw [heq]
    exact ⟨hfollows, le_rfl⟩
  · obtain ⟨h1, h2⟩ := hfollows.processed hmem he (hC m hm (msg, e) hp)
    rw [heq]
    exact ⟨h1, h2.trans (process_lastInputId m.engine e msg.id).ge⟩

theorem AllFollow.recovered (hs : AllFollow cfg s) (hend : EndsOnEvent s.log)
    {found : List ℕ} {m : Memory}
    (h : recover cfg s.log (found.filterMap fun i => s.files[i]?) = some m) :
    Follows cfg.market s.log m.engine := by
  obtain ⟨t, ht, hm⟩ := Option.bind_eq_some_iff.mp h
  obtain rfl := Option.some.inj hm
  have hfound : ∀ f ∈ found.filterMap fun i => s.files[i]?,
      ∃ u, IsSave cfg f u ∧ Follows cfg.market s.log u := by
    intro f hf
    obtain ⟨i, -, hi⟩ := List.mem_filterMap.mp hf
    exact hs.saved f (List.mem_of_getElem? hi)
  rcases loadEngine_cases hfound ht with rfl | ⟨u, hu, hsame⟩
  · exact (Follows.createState _ _).recovered hend
  · exact (hu.same hsame).recovered hend

theorem allFollow_step (hC : HandledInOrder cfg s a) (h : step cfg s a = some s')
    (hs : AllFollow cfg s) : AllFollow cfg s' := by
  have hfrom := fromLog_step h hs.fromLog
  cases step_cases h with
  | add hlog =>
    refine ⟨fun m hm => (hs.running m hm).add hlog, fun f hf => ?_, hfrom⟩
    obtain ⟨t, ht, hfollows⟩ := hs.saved f hf
    exact ⟨t, ht, hfollows.add hlog⟩
  | recover hdown hrec =>
    refine ⟨fun m hm => ?_, hs.saved, hfrom⟩
    obtain rfl := Option.some.inj hm
    exact hs.recovered hC hrec
  | crash => exact ⟨fun m hm => (nomatch hm), hs.saved, hfrom⟩
  | dispatch hm hwork hbatch =>
    refine ⟨fun m hm' => ?_, hs.saved, hfrom⟩
    obtain rfl := Option.some.inj hm'
    exact (hs.dispatched hC hm hbatch).1
  | saveSnapshot file savedAt hm =>
    refine ⟨hs.running, fun f hf => ?_, hfrom⟩
    rcases List.mem_append.mp hf with hf | hf
    · exact hs.saved f hf
    · rw [List.mem_singleton.mp hf]
      exact ⟨_, ⟨savedAt, rfl⟩, hs.running _ hm⟩
  | readNew _ hm | reclaim _ _ hm | publish _ hm | ack _ hm | deadAck _ hm | deadLetter _ hm =>
    have hfollows := hs.running _ hm
    refine ⟨fun m hm' => ?_, hs.saved, hfrom⟩
    obtain rfl := Option.some.inj hm'
    exact hfollows

end Step

theorem allFollow_run {cfg : Config} {as : List Action} {s t : System}
    (hC : Along (step cfg) (HandledInOrder cfg) s as) (hrun : runs (step cfg) s as = some t)
    (hs : AllFollow cfg s) : AllFollow cfg t :=
  runs_invariant (fun _ _ _ hC h hs => allFollow_step hC h hs) hs hC hrun

/-- A running engine that has reached an id. -/
def Reached (id : StreamId) (s : System) : Prop := ∃ m ∈ s.memory, id ≤ m.engine.lastInputId

theorem reached_step {cfg : Config} {s s' : System} {a : Action} {id : StreamId}
    (hC : HandledInOrder cfg s a) (ha : a ≠ .crash) (h : step cfg s a = some s')
    (hs : AllFollow cfg s) (hid : Reached id s) : Reached id s' := by
  obtain ⟨m, hm, hle⟩ := hid
  cases step_cases h with
  | add hlog => exact ⟨m, hm, hle⟩
  | recover hdown hrec =>
    rw [hdown] at hm
    cases hm
  | crash => exact absurd rfl ha
  | dispatch hm' hwork hbatch =>
    obtain rfl := Option.some.inj (hm.symm.trans hm')
    exact ⟨_, rfl, hle.trans (hs.dispatched hC hm' hbatch).2⟩
  | saveSnapshot file savedAt hm' => exact ⟨m, hm, hle⟩
  | readNew _ hm' | reclaim _ _ hm' | publish _ hm' | ack _ hm' | deadAck _ hm'
  | deadLetter _ hm' =>
    obtain rfl := Option.some.inj (hm.symm.trans hm')
    exact ⟨_, rfl, hle⟩

/-- At one moment of a run, the running engine is as replayed, and every snapshot
that was saved loads and resumes. -/
structure LiveIsReplayed (cfg : Config) (s : System) : Prop where
  running : ∀ m ∈ s.memory, IsReplayed cfg.market s.log m.engine
  saved : ∀ f ∈ s.files, ∃ loaded ∈ SnapshotStore.load cfg.sha256 f.1 f.2,
    Resumes cfg.market s.log loaded.state

/-- In a run that handles its messages in order and recovers on events, live state is
replayed state at every moment, and the last input id of a running engine does not go
back. -/
theorem live_is_replayed (cfg : Config) {as bs : List Action} {s s' : System}
    (hC : Along (step cfg) (HandledInOrder cfg) .init (as ++ bs))
    (hrun : runs (step cfg) .init as = some s) (hmore : runs (step cfg) s bs = some s') :
    LiveIsReplayed cfg s ∧ (.crash ∉ bs → ∀ m ∈ s.memory, ∀ m' ∈ s'.memory,
      m.engine.lastInputId ≤ m'.engine.lastInputId) := by
  obtain ⟨has, hbs⟩ := hC.of_append
  have hbs := hbs s hrun
  have hs := allFollow_run has hrun (.init cfg)
  refine ⟨⟨fun m hm => (hs.running m hm).isReplayed, fun f hf => ?_⟩, fun hcrash m hm m' hm' => ?_⟩
  · obtain ⟨t, ⟨savedAt, hsave⟩, hfollows⟩ := hs.saved f hf
    rw [hsave, load_save_self]
    exact ⟨_, rfl, hfollows.isReplayed.resumes⟩
  · have hsteady : Along (step cfg) (fun s a => HandledInOrder cfg s a ∧ a ≠ .crash) s bs :=
      hbs.mono fun u a ha hu => ⟨hu, fun heq => hcrash (heq ▸ ha)⟩
    have hreached := runs_invariant
      (I := fun u => AllFollow cfg u ∧ Reached m.engine.lastInputId u)
      (fun u a v ha h hu => ⟨allFollow_step ha.1 h hu.1, reached_step ha.1 ha.2 h hu.1 hu.2⟩)
      ⟨hs, m, hm, le_rfl⟩ hsteady hmore
    obtain ⟨n, hn, hle⟩ := hreached.2
    obtain rfl := Option.some.inj (hn.symm.trans hm')
    exact hle

end EngineRuntime

namespace Fixture

def notAnEvent : InputEntry := ⟨⟨2, 0⟩, none⟩

/-- Publishing fails, a reply of new entries is lost, and both times the entries
are reclaimed; one of them does not decode. -/
def retriedRun : List EngineRuntime.Action :=
  [.recover [], .add newUser, .readNew .ok, .dispatch, .publish .failed, .add notAnEvent,
    .add deposit, .reclaim [⟨1, 0⟩] .ok, .dispatch, .ack .ok, .readNew .lost,
    .reclaim [⟨2, 0⟩, ⟨3, 0⟩] .ok, .dispatch, .dispatch, .publish .ok]

/-- The second entry is handled while the first one is pending, with its reply lost. -/
def skippedRun : List EngineRuntime.Action :=
  [.recover [], .add newUser, .readNew .lost, .add deposit, .readNew .ok, .dispatch]

def reclaimedRun : List EngineRuntime.Action :=
  [.publish .ok, .ack .ok, .reclaim [⟨1, 0⟩] .ok, .dispatch]

end Fixture

namespace EngineRuntime

open Fixture in
theorem live_is_replayed_retried :
    ∃ s s', runs (step CONFIG) .init retriedRun = some s ∧
      runs (step CONFIG) s [.ack .ok, .saveSnapshot "a" 0] = some s' ∧ LiveIsReplayed CONFIG s ∧
      (.crash ∉ [Action.ack .ok, .saveSnapshot "a" 0] → ∀ m ∈ s.memory, ∀ m' ∈ s'.memory,
        m.engine.lastInputId ≤ m'.engine.lastInputId) := by
  have hsome : ((runs (step CONFIG) .init retriedRun).bind fun s =>
      runs (step CONFIG) s [.ack .ok, .saveSnapshot "a" 0]).isSome := by decide +kernel
  obtain ⟨s', hs'⟩ := Option.isSome_iff_exists.mp hsome
  obtain ⟨s, hs, hmore⟩ := Option.bind_eq_some_iff.mp hs'
  exact ⟨s, s', hs, hmore, live_is_replayed CONFIG (by decide +kernel) hs hmore⟩

open Fixture in
/-- The engine has skipped an entry that comes before its last input id, and goes
back to that one later. -/
theorem skipped_then_reclaimed :
    ∃ s s', runs (step CONFIG) .init skippedRun = some s ∧
      runs (step CONFIG) s reclaimedRun = some s' ∧ .crash ∉ reclaimedRun ∧
      ∃ m ∈ s.memory, ∃ m' ∈ s'.memory,
        serialize m.engine ≠ serialize (foldOf MARKET (s.log.through m.engine.lastInputId)) ∧
          m'.engine.lastInputId < m.engine.lastInputId := by
  have hsome : ((runs (step CONFIG) .init skippedRun).bind fun s =>
      runs (step CONFIG) s reclaimedRun).isSome := by decide +kernel
  obtain ⟨s', hs'⟩ := Option.isSome_iff_exists.mp hsome
  obtain ⟨s, hs, hmore⟩ := Option.bind_eq_some_iff.mp hs'
  have hfacts : ∀ s ∈ runs (step CONFIG) .init skippedRun, ∀ s' ∈ runs (step CONFIG) s reclaimedRun,
      ∃ m ∈ s.memory, ∃ m' ∈ s'.memory,
        m.engine.appliedCount ≠ (foldOf MARKET (s.log.through m.engine.lastInputId)).appliedCount ∧
          m'.engine.lastInputId < m.engine.lastInputId := by decide +kernel
  obtain ⟨m, hm, m', hm', hcount, hback⟩ := hfacts s hs s' hmore
  refine ⟨s, s', hs, hmore, by decide, m, hm, m', hm', fun heq => hcount ?_, hback⟩
  exact congrArg SerializedState.appliedCount heq

end EngineRuntime

end Perps
