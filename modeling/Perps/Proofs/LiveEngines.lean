import Perps.Proofs.LiveReplay

/-! Every engine that ever lives in the runtime is that of an unbroken run over events of
the input log, whatever is lost, redelivered, folded twice or brought back from a
snapshot; and the runtime publishes nothing else than what such engines put out. -/

namespace Perps

open Lib Engine

namespace EngineRuntime

/-- What a property of engines needs, to hold of all that live. -/
structure EngineRules (market : MarketConfig) (P : InputLog → EngineState → Prop) : Prop where
  init : ∀ log, P log (createState market)
  add : ∀ {log log' x t}, log.add x = some log' → P log t → P log' t
  same : ∀ {log t u}, SameUpToOrder t u → P log t → P log u
  skip : ∀ {log t} (id : StreamId), P log t → P log { t with lastInputId := id }
  process : ∀ {log t y e}, y ∈ log.entries → decodeInputEvent y.data = some e → P log t →
    P log (process t e y.id).1

/-- It is an output of an engine with the property. -/
def PutOut (P : InputLog → EngineState → Prop) (log : InputLog) (out : EngineOutputEvent) : Prop :=
  ∃ t y e, P log t ∧ y ∈ log.entries ∧ decodeInputEvent y.data = some e ∧
    out ∈ (Engine.process t e y.id).2

/-- Every engine, running or saved, has the property, and all that is published or about
to be comes from such engines. -/
structure Lives (cfg : Config) (P : InputLog → EngineState → Prop) (s : System) : Prop where
  running : ∀ m ∈ s.memory, P s.log m.engine
  saved : ∀ f ∈ s.files, ∃ t, IsSave cfg f t ∧ P s.log t
  published : ∀ out ∈ s.output, PutOut P s.log out
  publishing : ∀ m ∈ s.memory, ∀ msg outputs, m.work = .publishing msg outputs →
    ∀ out ∈ outputs, PutOut P s.log out
  fromLog : FromLog s

theorem Lives.init (cfg : Config) (P : InputLog → EngineState → Prop) : Lives cfg P .init :=
  ⟨fun _ hm => (nomatch hm), fun _ hf => (nomatch hf), fun _ hout => (nomatch hout),
    fun _ hm => (nomatch hm), fromLog_init⟩

section Step

variable {cfg : Config} {P : InputLog → EngineState → Prop} {s s' : System} {a : Action}

theorem PutOut.add (hP : EngineRules cfg.market P) {log log' : InputLog} {x : InputEntry}
    (hadd : log.add x = some log') {out : EngineOutputEvent} (h : PutOut P log out) :
    PutOut P log' out := by
  obtain ⟨t, y, e, ht, hy, he, hout⟩ := h
  exact ⟨t, y, e, hP.add hadd ht, (Log.mem_of_add hadd).mpr (Or.inl hy), he, hout⟩

theorem EngineRules.replayed (hP : EngineRules cfg.market P) {log : InputLog}
    {entries : List InputEntry} (hsub : entries ⊆ log.entries) {t : EngineState} (h : P log t) :
    P log (replay t entries) := by
  induction entries generalizing t with
  | nil => exact h
  | cons x xs ih =>
    obtain ⟨hx, hxs⟩ := List.cons_subset.mp hsub
    refine ih hxs (t := replayEntry t x) ?_
    cases he : decodeInputEvent x.data with
    | none => rw [replayEntry_skip he]; exact hP.skip x.id h
    | some e => rw [replayEntry_event he]; exact hP.process hx he h

theorem Lives.recovered (hP : EngineRules cfg.market P) (hs : Lives cfg P s) {found : List ℕ}
    {m : Memory} (h : recover cfg s.log (found.filterMap fun i => s.files[i]?) = some m) :
    P s.log m.engine ∧ m.work = .idle := by
  obtain ⟨t, ht, hm⟩ := Option.bind_eq_some_iff.mp h
  obtain rfl := Option.some.inj hm
  have hfound : ∀ f ∈ found.filterMap fun i => s.files[i]?, ∃ u, IsSave cfg f u ∧ P s.log u := by
    intro f hf
    obtain ⟨i, -, hi⟩ := List.mem_filterMap.mp hf
    exact hs.saved f (List.mem_of_getElem? hi)
  have hafter : s.log.after t.lastInputId ⊆ s.log.entries := fun x hx => (Log.mem_after.mp hx).1
  refine ⟨?_, rfl⟩
  rcases loadEngine_cases hfound ht with rfl | ⟨u, hu, hsame⟩
  · exact hP.replayed hafter (hP.init s.log)
  · exact hP.replayed hafter (hP.same hsame hu)

/-- A message is handled: its event is one of the log. -/
theorem Lives.dispatched (hP : EngineRules cfg.market P) (hs : Lives cfg P s) {m : Memory}
    {msg : InputMessage} {batch : List InputMessage} (hm : s.memory = some m)
    (hidle : m.work = .idle) (hbatch : m.batch = msg :: batch) :
    P s.log (dispatch cfg { m with batch := batch } msg).engine ∧
      ∀ msg' outputs, (dispatch cfg { m with batch := batch } msg).work = .publishing msg' outputs →
        ∀ out ∈ outputs, PutOut P s.log out := by
  have hold := hs.running m hm
  have hmem : msg.toEntry ∈ s.log.entries :=
    hs.fromLog m hm msg (Or.inl (hbatch ▸ List.mem_cons_self))
  rcases dispatch_cases cfg hbatch with
    ⟨-, -, heq⟩ | ⟨-, -, heq⟩ | ⟨-, -, heq⟩ | ⟨e, he, hp, heq⟩
  · rw [heq]
    exact ⟨hold, fun _ _ hwork => nomatch hwork⟩
  · rw [heq]
    exact ⟨hold, fun _ _ hwork => nomatch hwork⟩
  · rw [heq]
    refine ⟨hold, fun _ _ hwork => ?_⟩
    exact nomatch hidle.symm.trans hwork
  · rw [heq]
    refine ⟨hP.process (y := msg.toEntry) hmem he hold, fun msg' outputs hwork out hout => ?_⟩
    dsimp only at hwork
    unfold publish at hwork
    split_ifs at hwork
    obtain ⟨-, rfl⟩ := Work.publishing.inj hwork
    exact ⟨m.engine, msg.toEntry, e, hold, hmem, he, hout⟩

theorem lives_step (hP : EngineRules cfg.market P) (h : step cfg s a = some s')
    (hs : Lives cfg P s) : Lives cfg P s' := by
  have hfrom := fromLog_step h hs.fromLog
  cases step_cases h with
  | add hlog =>
    refine ⟨fun m hm => hP.add hlog (hs.running m hm), fun f hf => ?_,
      fun out hout => (hs.published out hout).add hP hlog,
      fun m hm msg outputs hwork out hout => (hs.publishing m hm msg outputs hwork out hout).add hP hlog,
      hfrom⟩
    obtain ⟨t, ht, hlives⟩ := hs.saved f hf
    exact ⟨t, ht, hP.add hlog hlives⟩
  | recover hdown hrec =>
    obtain ⟨hlives, hidle⟩ := hs.recovered hP hrec
    refine ⟨fun m hm => ?_, hs.saved, hs.published, fun m hm msg outputs hwork => ?_, hfrom⟩
    · obtain rfl := Option.some.inj hm
      exact hlives
    · obtain rfl := Option.some.inj hm
      exact nomatch hidle.symm.trans hwork
  | crash =>
    exact ⟨fun _ hm => (nomatch hm), hs.saved, hs.published, fun _ hm => (nomatch hm), hfrom⟩
  | dispatch hm hwork hbatch =>
    obtain ⟨hlives, hout⟩ := hs.dispatched hP hm hwork hbatch
    refine ⟨fun m hm' => ?_, hs.saved, hs.published, fun m hm' => ?_, hfrom⟩
    · obtain rfl := Option.some.inj hm'
      exact hlives
    · obtain rfl := Option.some.inj hm'
      exact hout
  | @publish reply m msg out outputs hm hwork =>
    have hall := hs.publishing m hm msg (out :: outputs) hwork
    refine ⟨fun m' hm' => ?_, hs.saved, fun o ho => ?_, fun m' hm' msg' outputs' hwork' => ?_, hfrom⟩
    · obtain rfl := Option.some.inj hm'
      exact hs.running m hm
    · dsimp only at ho
      split_ifs at ho
      · rcases List.mem_append.mp ho with ho | ho
        · exact hs.published o ho
        · rw [List.mem_singleton.mp ho]
          exact hall out List.mem_cons_self
      · exact hs.published o ho
    · obtain rfl := Option.some.inj hm'
      dsimp only at hwork'
      split_ifs at hwork'
      unfold EngineRuntime.publish at hwork'
      split_ifs at hwork'
      obtain ⟨-, rfl⟩ := Work.publishing.inj hwork'
      exact fun o ho => hall o (List.mem_cons_of_mem _ ho)
  | saveSnapshot file savedAt hm =>
    refine ⟨hs.running, fun f hf => ?_, hs.published, hs.publishing, hfrom⟩
    rcases List.mem_append.mp hf with hf | hf
    · exact hs.saved f hf
    · rw [List.mem_singleton.mp hf]
      exact ⟨_, ⟨savedAt, rfl⟩, hs.running _ hm⟩
  | @readNew _ m hm hwork | @reclaim _ _ m hm hwork =>
    have hlives := hs.running m hm
    refine ⟨fun m' hm' => ?_, hs.saved, hs.published, fun m' hm' msg outputs hwork' => ?_, hfrom⟩
    · obtain rfl := Option.some.inj hm'
      exact hlives
    · obtain rfl := Option.some.inj hm'
      exact nomatch hwork.symm.trans hwork'
  | @ack reply m msg hm | @deadAck reply m msg hm =>
    have hlives := hs.running m hm
    refine ⟨fun m' hm' => ?_, hs.saved, hs.published, fun m' hm' msg outputs hwork' => ?_, hfrom⟩
    · obtain rfl := Option.some.inj hm'
      exact hlives
    · obtain rfl := Option.some.inj hm'
      cases hwork'
  | @deadLetter reply m msg hm =>
    have hlives := hs.running m hm
    refine ⟨fun m' hm' => ?_, hs.saved, hs.published, fun m' hm' msg outputs hwork' => ?_, hfrom⟩
    · obtain rfl := Option.some.inj hm'
      exact hlives
    · obtain rfl := Option.some.inj hm'
      dsimp only at hwork'
      split_ifs at hwork'

end Step

/-- The rule for a property of all engines that live. -/
theorem lives_run {cfg : Config} {P : InputLog → EngineState → Prop} (hP : EngineRules cfg.market P)
    {as : List Action} {s : System} (hrun : runs (step cfg) .init as = some s) : Lives cfg P s :=
  runs_history (I := fun _ s => Lives cfg P s) (.init cfg P)
    (fun _ _ _ _ _ h hs => lives_step hP h hs) hrun

/-! Unbroken runs -/

/-- The events are events of the log. -/
def OfLog (log : InputLog) (evs : List (EngineInputEvent × StreamId)) : Prop :=
  ∀ x ∈ evs, ∃ y ∈ log.entries, y.id = x.2 ∧ decodeInputEvent y.data = some x.1

/-- The engine has gone through events of the log, up to the order of its maps and its
last input id. -/
def GoneThrough (market : MarketConfig) (log : InputLog) (t : EngineState) : Prop :=
  ∃ evs, OfLog log evs ∧ Alike 0 OrdMap.AnyOrder (run (createState market) evs).1 t

theorem goneThrough_rules (market : MarketConfig) : EngineRules market (GoneThrough market) where
  init log := ⟨[], fun _ hx => (nomatch hx), (SameUpToOrder.refl _).alike⟩
  add := by
    rintro log log' x t hadd ⟨evs, hevs, halike⟩
    refine ⟨evs, fun z hz => ?_, halike⟩
    obtain ⟨y, hy, hyz⟩ := hevs z hz
    exact ⟨y, (Log.mem_of_add hadd).mpr (Or.inl hy), hyz⟩
  same := by
    rintro log t u hsame ⟨evs, hevs, halike⟩
    exact ⟨evs, hevs, halike.then_same hsame⟩
  skip := by
    rintro log t id ⟨evs, hevs, halike⟩
    exact ⟨evs, hevs, alike_lastInputId halike (run (createState market) evs).1.lastInputId id⟩
  process := by
    rintro log t y e hy he ⟨evs, hevs, halike⟩
    refine ⟨evs ++ [(e, y.id)], fun z hz => ?_, ?_⟩
    · rcases List.mem_append.mp hz with hz | hz
      · exact hevs z hz
      · rw [List.mem_singleton.mp hz]
        exact ⟨y, hy, rfl, he⟩
    · rw [run_append]
      exact process_alike halike (keysOK_steps (keysOK_createState market) evs) e y.id

/-- The serialized engine is that of an unbroken run over events of the log, some perhaps
out of order or more than once, apart from its last input id. -/
def IsRunOf (market : MarketConfig) (log : InputLog) (t : EngineState) : Prop :=
  ∃ evs, OfLog log evs ∧ serialize t =
    { serialize (run (createState market) evs).1 with lastInputId := t.lastInputId }

theorem GoneThrough.isRunOf {market : MarketConfig} {log : InputLog} {t : EngineState}
    (h : GoneThrough market log t) : IsRunOf market log t := by
  obtain ⟨evs, hevs, halike⟩ := h
  exact ⟨evs, hevs, serialize_alike halike⟩

/-- In every run of the runtime, its engine is once serialized that of an unbroken run, and
what it publishes was put out by such an engine. -/
theorem live_engines_run (cfg : Config) {as : List Action} {s : System}
    (hrun : runs (step cfg) .init as = some s) :
    (∀ m ∈ s.memory, IsRunOf cfg.market s.log m.engine) ∧
      ∀ out ∈ s.output, PutOut (IsRunOf cfg.market) s.log out := by
  have hs := lives_run (goneThrough_rules cfg.market) hrun
  refine ⟨fun m hm => (hs.running m hm).isRunOf, fun out hout => ?_⟩
  obtain ⟨t, y, e, ht, hy⟩ := hs.published out hout
  exact ⟨t, y, e, ht.isRunOf, hy⟩

open Fixture in
/-- The engine skips an entry and comes back to it. -/
theorem live_engines_run_reclaimed :
    ∃ s, runs (step CONFIG) .init (skippedRun ++ reclaimedRun) = some s ∧ s.memory ≠ none ∧
      s.output ≠ [] ∧ (∀ m ∈ s.memory, IsRunOf MARKET s.log m.engine) ∧
      ∀ out ∈ s.output, PutOut (IsRunOf MARKET) s.log out := by
  have hfacts : ∃ s ∈ runs (step CONFIG) .init (skippedRun ++ reclaimedRun),
      s.memory.isSome ∧ s.output ≠ [] := by decide +kernel
  obtain ⟨s, hs, hm, hout⟩ := hfacts
  exact ⟨s, hs, Option.isSome_iff_ne_none.mp hm, hout, live_engines_run CONFIG hs⟩

end EngineRuntime

end Perps
