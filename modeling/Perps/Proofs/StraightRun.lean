import Perps.Runtime.Recovery

/-! The runtime when nothing fails and the engine starts on an empty stream: it is that
of one run over the entries that it has come to, and what is published or about to be are
the outputs of that run. -/

namespace Perps

open Lib Engine

namespace EngineRuntime

/-- No reply is lost, nothing is redelivered, and the engine is never restarted. -/
def Smooth (s : System) : Action → Prop
  | .add _ | .dispatch | .saveSnapshot _ _ => True
  | .recover _ => s.log.entries = []
  | .readNew reply | .publish reply | .ack reply => reply = .ok
  | .reclaim _ _ | .deadLetter _ | .crash => False

instance (s : System) (a : Action) : Decidable (Smooth s a) :=
  match a with
  | .add _ | .dispatch | .saveSnapshot _ _ => inferInstanceAs (Decidable True)
  | .recover _ => inferInstanceAs (Decidable (s.log.entries = []))
  | .readNew reply | .publish reply | .ack reply => inferInstanceAs (Decidable (reply = .ok))
  | .reclaim _ _ | .deadLetter _ | .crash => inferInstanceAs (Decidable False)

/-- The outputs that are still to be published. -/
def Work.remaining : Work → List EngineOutputEvent
  | .publishing _ outputs => outputs
  | _ => []

def upcoming (s : System) : List EngineOutputEvent :=
  match s.memory with
  | none => []
  | some m => m.work.remaining

/-- The entries that the engine has yet to come to. -/
def unhandled (s : System) : List InputEntry :=
  match s.memory with
  | none => s.log.entries
  | some m => m.batch.map StreamMessage.toEntry ++ s.log.after s.group.lastDelivered

/-- A message that is being answered, or none. -/
def Work.Regular : Work → Prop
  | .idle | .acking _ | .publishing _ (_ :: _) => True
  | .publishing _ [] | .deadLettering _ | .deadAcking _ => False

/-- The engine, or the one that it starts with. -/
def engineOf (cfg : Config) (s : System) : EngineState :=
  match s.memory with
  | none => createState cfg.market
  | some m => m.engine

/-- A running engine that has replayed nothing, with a batch of first deliveries. -/
structure Untroubled (m : Memory) : Prop where
  replayedThrough : m.replayedThrough = .zero
  deliveries : ∀ msg ∈ m.batch, msg.deliveries = 1
  work : m.work.Regular

structure Straight (cfg : Config) (handled : List InputEntry) (s : System) : Prop where
  log : s.log.entries = handled ++ unhandled s
  engine : engineOf cfg s = foldOf cfg.market handled
  outputs : s.output ++ upcoming s = (run (createState cfg.market) (decoded handled)).2
  marks : s.log.Marks s.group.lastDelivered
  down : s.memory = none → s.group = .create ∧ s.files = []
  up : ∀ m ∈ s.memory, Untroubled m

theorem Straight.init (cfg : Config) : Straight cfg [] .init where
  log := rfl
  engine := rfl
  outputs := rfl
  marks := Or.inl rfl
  down _ := ⟨rfl, rfl⟩
  up _ hm := absurd hm (Option.not_mem_none _)

theorem remaining_idle : Work.idle.remaining = [] := rfl

theorem publish_remaining (msg : InputMessage) (outputs : List EngineOutputEvent) :
    (publish msg outputs).remaining = outputs := by
  unfold publish
  split_ifs with hnil
  · exact hnil.symm
  · rfl

theorem publish_regular (msg : InputMessage) (outputs : List EngineOutputEvent) :
    (publish msg outputs).Regular := by
  cases outputs with
  | nil => exact trivial
  | cons out outputs => exact trivial

section Step

variable {cfg : Config} {handled : List InputEntry} {s s' : System}

theorem Straight.add (hs : Straight cfg handled s) {entry : InputEntry} {log : InputLog}
    (hadd : s.log.add entry = some log) : Straight cfg handled { s with log := log } := by
  have hentries : log.entries = s.log.entries ++ [entry] := (Log.add_eq hadd).1
  have hunhandled : unhandled { s with log := log } = unhandled s ++ [entry] := by
    unfold unhandled
    dsimp only
    cases s.memory with
    | none => exact hentries
    | some m =>
      dsimp only
      rw [Log.after_add hadd hs.marks, List.append_assoc]
  refine ⟨?_, hs.engine, hs.outputs, hs.marks.add hadd, hs.down, hs.up⟩
  rw [hunhandled, ← List.append_assoc, ← hs.log]
  exact hentries

/-- What a running engine says of its place. -/
theorem Straight.of_memory {m : Memory} (hm : s.memory = some m)
    (hlog : s.log.entries = handled ++
      (m.batch.map StreamMessage.toEntry ++ s.log.after s.group.lastDelivered))
    (hengine : m.engine = foldOf cfg.market handled)
    (houtputs : s.output ++ m.work.remaining = (run (createState cfg.market) (decoded handled)).2)
    (hmarks : s.log.Marks s.group.lastDelivered) (hup : Untroubled m) : Straight cfg handled s where
  log := by
    unfold unhandled
    rw [hm]
    exact hlog
  engine := by
    unfold engineOf
    rw [hm]
    exact hengine
  outputs := by
    unfold upcoming
    rw [hm]
    exact houtputs
  marks := hmarks
  down h := absurd (hm.symm.trans h) (Option.some_ne_none m)
  up m' hm' := Option.some.inj (hm.symm.trans hm') ▸ hup

theorem Straight.memory (hs : Straight cfg handled s) {m : Memory} (hm : s.memory = some m) :
    s.log.entries = handled ++
        (m.batch.map StreamMessage.toEntry ++ s.log.after s.group.lastDelivered) ∧
      m.engine = foldOf cfg.market handled ∧
      s.output ++ m.work.remaining = (run (createState cfg.market) (decoded handled)).2 := by
  have hlog := hs.log
  have hengine := hs.engine
  have houtputs := hs.outputs
  unfold unhandled at hlog
  unfold engineOf at hengine
  unfold upcoming at houtputs
  rw [hm] at hlog hengine houtputs
  exact ⟨hlog, hengine, houtputs⟩

/-- The engine starts. -/
theorem Straight.recovered (hs : Straight cfg handled s) (hdown : s.memory = none)
    (hempty : s.log.entries = []) {found : List ℕ} {m : Memory}
    (hrec : recover cfg s.log (found.filterMap fun i => s.files[i]?) = some m) :
    Straight cfg handled { s with memory := some m } := by
  obtain ⟨hgroup, hfiles⟩ := hs.down hdown
  have hlog := hs.log
  have houtputs := hs.outputs
  unfold unhandled at hlog
  unfold upcoming at houtputs
  rw [hdown] at hlog houtputs
  have hhandled : handled = [] := by
    rw [hempty] at hlog
    exact (List.append_eq_nil_iff.mp hlog.symm).1
  have hfound : (found.filterMap fun i => s.files[i]?) = [] := by
    rw [hfiles]
    exact List.filterMap_eq_nil_iff.mpr fun _ _ => rfl
  have hafter (id : StreamId) : s.log.after id = [] := by
    unfold Log.after
    rw [hempty]
    rfl
  rw [hfound] at hrec
  simp only [recover, loadEngine, SnapshotStore.loadLatest, List.findSome?_nil, hafter, replay,
    List.foldl_nil, Option.bind_eq_bind, Option.bind_some, Option.some.injEq] at hrec
  subst hrec hhandled
  refine .of_memory rfl ?_ rfl houtputs hs.marks
    ⟨rfl, fun _ hmsg => absurd hmsg List.not_mem_nil, trivial⟩
  rw [hafter]
  exact hempty

/-- The engine reads on. -/
theorem Straight.readNew (hs : Straight cfg handled s) {m : Memory} (hm : s.memory = some m)
    (hbatch : m.batch = []) :
    Straight cfg handled { s with
      group := (s.group.readNew s.log cfg.count).1
      memory := some { m with batch := (s.group.readNew s.log cfg.count).2 } } := by
  obtain ⟨hlog, hengine, houtputs⟩ := hs.memory hm
  have hentries : (s.group.readNew s.log cfg.count).2.map StreamMessage.toEntry ++
      s.log.after (s.group.readNew s.log cfg.count).1.lastDelivered =
        s.log.after s.group.lastDelivered := by
    have hid : (StreamMessage.toEntry ∘ fun x : InputEntry =>
        ({ x with deliveries := 1 } : InputMessage)) = id := rfl
    rw [Group.after_readNew]
    simp only [Group.readNew, List.map_map]
    rw [hid, List.map_id, List.take_append_drop]
  refine .of_memory rfl ?_ hengine houtputs (Group.marks_readNew hs.marks)
    ⟨(hs.up m hm).replayedThrough, fun msg hmsg => ?_, (hs.up m hm).work⟩
  · rw [hlog, hbatch]
    exact congrArg (handled ++ ·) hentries.symm
  · obtain ⟨x, -, rfl⟩ := List.mem_map.mp hmsg
    rfl

/-- The engine takes the next entry. -/
theorem Straight.dispatched (hs : Straight cfg handled s) (hmax : 0 < cfg.maxDeliveries)
    {m : Memory} {msg : InputMessage} {batch : List InputMessage} (hm : s.memory = some m)
    (hwork : m.work = .idle) (hbatch : m.batch = msg :: batch) :
    Straight cfg (handled ++ [msg.toEntry])
      { s with memory := some (dispatch cfg { m with batch := batch } msg) } := by
  obtain ⟨hreplayed, hdeliveries, hregular⟩ := hs.up m hm
  obtain ⟨hlog, hengine, houtputs⟩ := hs.memory hm
  rw [hbatch, List.map_cons, List.cons_append] at hlog
  rw [hwork, remaining_idle, List.append_nil] at houtputs
  have hmem : msg.toEntry ∈ s.log.entries := by
    rw [hlog]
    simp
  have hlog' : s.log.entries = handled ++ [msg.toEntry] ++
      (batch.map StreamMessage.toEntry ++ s.log.after s.group.lastDelivered) := by
    rw [hlog, List.append_assoc]
    rfl
  have hrest : ∀ msg' ∈ batch, msg'.deliveries = 1 := fun msg' hmem =>
    hdeliveries msg' (hbatch ▸ List.mem_cons_of_mem _ hmem)
  have hdecoded : decoded (handled ++ [msg.toEntry]) = decoded handled ++ decoded [msg.toEntry] :=
    List.filterMap_append
  rcases dispatch_cases cfg hbatch with
    ⟨hlate, -, -⟩ | ⟨hold, -, -⟩ | ⟨he, -, heq⟩ | ⟨e, he, -, heq⟩
  · have hone := hdeliveries msg (hbatch ▸ List.mem_cons_self)
    omega
  · rw [hreplayed] at hold
    exact absurd hold (not_le.mpr (s.log.positive _ hmem))
  · rw [heq]
    have hnone : decoded [msg.toEntry] = [] := decoded_skip he []
    refine .of_memory rfl hlog' ?_ ?_ hs.marks ⟨hreplayed, hrest, hregular⟩
    · rw [foldOf_append, hnone]
      exact hengine
    · rw [hdecoded, hnone, List.append_nil, hwork, remaining_idle, List.append_nil]
      exact houtputs
  · rw [heq]
    have hone : decoded [msg.toEntry] = [(e, msg.id)] := decoded_event he []
    refine .of_memory rfl hlog' ?_ ?_ hs.marks ⟨hreplayed, hrest, publish_regular _ _⟩
    · rw [foldOf_append, hone, ← hengine]
      rfl
    · rw [hdecoded, hone, run_append, ← houtputs, publish_remaining]
      show _ = s.output ++ ((process (foldOf cfg.market handled) e msg.id).2 ++ [])
      rw [List.append_nil, ← hengine]

/-- One output is published. -/
theorem Straight.published (hs : Straight cfg handled s) {m : Memory} {msg : InputMessage}
    {out : EngineOutputEvent} {outputs : List EngineOutputEvent} (hm : s.memory = some m)
    (hwork : m.work = .publishing msg (out :: outputs)) :
    Straight cfg handled { s with
      output := s.output ++ [out]
      memory := some { m with work := publish msg outputs } } := by
  obtain ⟨hlog, hengine, houtputs⟩ := hs.memory hm
  obtain ⟨hreplayed, hdeliveries, -⟩ := hs.up m hm
  refine .of_memory rfl hlog hengine ?_ hs.marks ⟨hreplayed, hdeliveries, publish_regular _ _⟩
  rw [hwork] at houtputs
  show s.output ++ [out] ++ (publish msg outputs).remaining = _
  rw [publish_remaining, List.append_assoc]
  exact houtputs

/-- A message is done. -/
theorem Straight.acked (hs : Straight cfg handled s) {m : Memory} {msg : InputMessage}
    (hm : s.memory = some m) (hwork : m.work = .acking msg) :
    Straight cfg handled { s with
      group := s.group.ack msg.id
      memory := some { m with work := .idle } } := by
  obtain ⟨hlog, hengine, houtputs⟩ := hs.memory hm
  obtain ⟨hreplayed, hdeliveries, -⟩ := hs.up m hm
  refine .of_memory rfl hlog hengine ?_ hs.marks ⟨hreplayed, hdeliveries, trivial⟩
  rw [hwork] at houtputs
  exact houtputs

theorem straight_step (hmax : 0 < cfg.maxDeliveries) {a : Action} (ha : Smooth s a)
    (h : step cfg s a = some s') (hs : Straight cfg handled s) :
    ∃ handled', Straight cfg handled' s' := by
  cases step_cases h with
  | add hlog => exact ⟨handled, hs.add hlog⟩
  | recover hdown hrec => exact ⟨handled, hs.recovered hdown ha hrec⟩
  | crash hm => cases ha
  | readNew reply hm hwork hbatch =>
    obtain rfl : reply = .ok := ha
    exact ⟨handled, hs.readNew hm hbatch⟩
  | reclaim => cases ha
  | dispatch hm hwork hbatch => exact ⟨_, hs.dispatched hmax hm hwork hbatch⟩
  | publish reply hm hwork =>
    obtain rfl : reply = .ok := ha
    exact ⟨handled, hs.published hm hwork⟩
  | ack reply hm hwork =>
    obtain rfl : reply = .ok := ha
    exact ⟨handled, hs.acked hm hwork⟩
  | deadAck reply hm hwork =>
    have hregular := (hs.up _ hm).work
    rw [hwork] at hregular
    exact hregular.elim
  | deadLetter => cases ha
  | saveSnapshot file savedAt hm =>
    exact ⟨handled, hs.log, hs.engine, hs.outputs, hs.marks,
      fun h => absurd (hm.symm.trans h) (Option.some_ne_none _), hs.up⟩

theorem straight_run (hmax : 0 < cfg.maxDeliveries) {as : List Action}
    (hC : Along (step cfg) Smooth .init as) (hrun : runs (step cfg) .init as = some s) :
    ∃ handled, Straight cfg handled s :=
  runs_invariant (I := fun s => ∃ handled, Straight cfg handled s)
    (fun _ _ _ ha h ⟨_, hs⟩ => straight_step hmax ha h hs) ⟨[], .init cfg⟩ hC hrun

end Step

end EngineRuntime

end Perps
