import Perps.Domain.Agreement
import Perps.Runtime.Recovery

/-! The outputs of acknowledged entries. A handler that has run to its end has
published the outputs of its entry, if the engine was the fold of the log up to
it; recovery, retries and dead-lettering then have to leave out none that is not
answered yet. -/

namespace Perps

open Lib Engine

namespace EngineRuntime

/-- What `Engine.process` answers the entry with when it folds the log in order. -/
def outputsOf (market : MarketConfig) (log : InputLog) (x : InputEntry) : List EngineOutputEvent :=
  match decodeInputEvent x.data with
  | some e => (process (foldOf market (log.before x.id)) e x.id).2
  | none => []

/-- The entry does not decode, or is a repeated command or a price that liquidates
nobody in its place of the log. -/
def QuietEntry (market : MarketConfig) (log : InputLog) (x : InputEntry) : Prop :=
  ∀ e ∈ decodeInputEvent x.data, Quiet (foldOf market (log.before x.id)) e

/-! History -/

/-- The system, the newest entry that the running engine has folded, and the
messages whose handler has published all that `Engine.process` returned. -/
structure Watched where
  system : System
  newest : StreamId
  answered : List StreamId

def Watched.init : Watched := ⟨.init, .zero, []⟩

def newestAfter (cfg : Config) (w : Watched) (s' : System) : Action → StreamId
  | .recover _ => (s'.memory.map fun m => m.engine.lastInputId).getD w.newest
  | .dispatch =>
    ((w.system.memory.bind (processing cfg)).map fun p => max w.newest p.1.id).getD w.newest
  | _ => w.newest

/-- The message that a step answers in full. -/
def answers (cfg : Config) (m : Memory) : Action → Option StreamId
  | .dispatch => do
    let (msg, e) ← processing cfg m
    if (process m.engine e msg.id).2 = [] then some msg.id else none
  | .publish reply =>
    match m.work with
    | .publishing msg [_] => if reply.executed then some msg.id else none
    | _ => none
  | _ => none

def answeredBy (cfg : Config) (s : System) (a : Action) : List StreamId :=
  (s.memory.bind fun m => answers cfg m a).toList

def watch (cfg : Config) (w : Watched) (a : Action) : Option Watched :=
  (step cfg w.system a).map fun s' =>
    { system := s'
      newest := newestAfter cfg w s' a
      answered := w.answered ++ answeredBy cfg w.system a }

/-! The condition on a step -/

def Settled (cfg : Config) (w : Watched) (x : InputEntry) : Prop :=
  x.id ∈ w.answered ∨ QuietEntry cfg.market w.system.log x

/-- The event is new to the engine and comes next, apart from events without
effect, and liquidates in the order of the fold; or it is not new and has no effect. -/
def InTurn (cfg : Config) (w : Watched) (t : EngineState) (id : StreamId) (e : EngineInputEvent) :
    Prop :=
  (w.newest < id ∧
    (∀ x ∈ w.system.log.between w.newest id, ∀ e' ∈ decodeInputEvent x.data, Silent t e') ∧
    liquidatedBy t e = liquidatedBy (foldOf cfg.market (w.system.log.before id)) e) ∨
  (id ≤ w.newest ∧ Silent t e)

/-- The last of the outputs is being published. -/
def LastOutput : Work → Prop
  | .publishing _ [_] => True
  | _ => False

def Careful (cfg : Config) (w : Watched) : Action → Prop
  | .recover _ => ∀ x ∈ w.system.log.entries, Settled cfg w x
  | .dispatch => ∀ m ∈ w.system.memory,
    (∀ p ∈ processing cfg m, InTurn cfg w m.engine p.1.id p.2) ∧
      ∀ msg ∈ m.batch.head?, cfg.maxDeliveries < msg.deliveries → Settled cfg w msg.toEntry
  | .publish reply => ∀ m ∈ w.system.memory, reply = .ok ∨ reply = .lost ∧ LastOutput m.work
  | .saveSnapshot _ _ => ∀ m ∈ w.system.memory, ∀ x ∈ w.system.log.entries,
    m.engine.lastInputId < x.id → x.id ≤ w.newest →
      ∀ e ∈ decodeInputEvent x.data, Silent m.engine e
  | _ => True

section Decidable

variable (cfg : Config) (w : Watched)

instance (market : MarketConfig) (log : InputLog) (x : InputEntry) :
    Decidable (QuietEntry market log x) :=
  inferInstanceAs (Decidable (∀ e ∈ decodeInputEvent x.data, _))

instance (x : InputEntry) : Decidable (Settled cfg w x) :=
  inferInstanceAs (Decidable (_ ∨ _))

instance (t : EngineState) (id : StreamId) (e : EngineInputEvent) :
    Decidable (InTurn cfg w t id e) :=
  inferInstanceAs (Decidable ((_ ∧ _ ∧ _) ∨ (_ ∧ _)))

instance : DecidablePred LastOutput := fun
  | .publishing _ [_] => isTrue trivial
  | .publishing _ [] | .publishing _ (_ :: _ :: _) => isFalse id
  | .idle | .acking _ | .deadLettering _ | .deadAcking _ => isFalse id

instance (a : Action) : Decidable (Careful cfg w a) :=
  match a with
  | .recover _ => inferInstanceAs (Decidable (∀ x ∈ w.system.log.entries, Settled cfg w x))
  | .dispatch => inferInstanceAs (Decidable (∀ m ∈ w.system.memory,
      (∀ p ∈ processing cfg m, InTurn cfg w m.engine p.1.id p.2) ∧
        ∀ msg ∈ m.batch.head?, cfg.maxDeliveries < msg.deliveries → Settled cfg w msg.toEntry))
  | .publish reply => inferInstanceAs (Decidable (∀ m ∈ w.system.memory,
      reply = .ok ∨ reply = .lost ∧ LastOutput m.work))
  | .saveSnapshot _ _ => inferInstanceAs (Decidable (∀ m ∈ w.system.memory,
      ∀ x ∈ w.system.log.entries, m.engine.lastInputId < x.id → x.id ≤ w.newest →
        ∀ e ∈ decodeInputEvent x.data, Silent m.engine e))
  | .add _ | .crash | .readNew _ | .reclaim _ _ | .ack _ | .deadLetter _ => isTrue trivial

end Decidable

/-! The invariant -/

/-- What the loop awaits keeps the outputs of its message within reach. -/
def WorkOK (cfg : Config) (w : Watched) : Work → Prop
  | .idle => True
  | .publishing msg outputs =>
    outputsOf cfg.market w.system.log msg.toEntry ⊆ w.system.output ++ outputs
  | .acking msg => Settled cfg w msg.toEntry
  | .deadLettering msg => Settled cfg w msg.toEntry
  | .deadAcking msg => Settled cfg w msg.toEntry

/-- The outputs of the entry are being published. -/
def InFlight (work : Work) (id : StreamId) : Prop :=
  ∃ msg outputs, work = .publishing msg outputs ∧ msg.id = id

structure Running (cfg : Config) (w : Watched) (m : Memory) : Prop where
  agree : Agree (foldOf cfg.market (w.system.log.through w.newest)) m.engine
  marks : w.system.log.Marks m.engine.lastInputId
  lastInputId : m.engine.lastInputId ≤ w.newest
  replayed : m.replayedThrough ≤ w.newest
  folded : ∀ x ∈ w.system.log.entries, x.id ≤ w.newest → Settled cfg w x ∨ InFlight m.work x.id
  work : WorkOK cfg w m.work

/-- A saved engine whose replay has no effect until it comes to new entries. -/
def Resumable (market : MarketConfig) (log : InputLog) (t : EngineState) : Prop :=
  ∃ newest, log.Marks newest ∧ log.Marks t.lastInputId ∧ t.lastInputId ≤ newest ∧
    Agree (foldOf market (log.through newest)) t ∧
    ∀ x ∈ log.entries, t.lastInputId < x.id → x.id ≤ newest →
      ∀ e ∈ decodeInputEvent x.data, Silent t e

structure Sound (cfg : Config) (w : Watched) : Prop where
  fromLog : FromLog w.system
  delivered : w.system.log.Marks w.system.group.lastDelivered
  newest : w.system.log.Marks w.newest
  running : ∀ m ∈ w.system.memory, Running cfg w m
  answered : ∀ id ∈ w.answered, ∃ x ∈ w.system.log.entries, x.id = id ∧
    outputsOf cfg.market w.system.log x ⊆ w.system.output
  acked : ∀ x ∈ w.system.log.entries, w.system.group.Acked x.id → Settled cfg w x
  saved : ∀ f ∈ w.system.files, ∃ t, IsSave cfg f t ∧ Resumable cfg.market w.system.log t

/-! Entries -/

section Entries

variable {market : MarketConfig} {log log' : InputLog} {x y : InputEntry}

theorem QuietEntry.outputs (h : QuietEntry market log x) : outputsOf market log x = [] := by
  unfold outputsOf
  cases he : decodeInputEvent x.data with
  | none => rfl
  | some e => exact (h e he).outputs x.id

theorem outputsOf_add (hadd : log.add y = some log') (hx : x ∈ log.entries) :
    outputsOf market log' x = outputsOf market log x := by
  unfold outputsOf
  rw [Log.before_add (Or.inr ⟨x, hx, rfl⟩) hadd]

theorem QuietEntry.add (h : QuietEntry market log x) (hadd : log.add y = some log')
    (hx : x ∈ log.entries) : QuietEntry market log' x := by
  unfold QuietEntry
  rw [Log.before_add (Or.inr ⟨x, hx, rfl⟩) hadd]
  exact h

/-- Events without effect on an engine that agrees with the fold up to a point are
without effect in the log. -/
theorem agree_between {t : EngineState} {lo hi : StreamId}
    (h : Agree (foldOf market (log.through lo)) t) (hlt : lo < hi)
    (hsilent : ∀ x ∈ log.between lo hi, ∀ e ∈ decodeInputEvent x.data, Silent t e) :
    Agree (foldOf market (log.before hi)) t := by
  have hrun : Agree (foldOf market (log.through lo))
      (run (foldOf market (log.through lo)) (decoded (log.between lo hi))).1 := by
    refine run_silent fun y hy => ?_
    obtain ⟨x, hx, he, -⟩ := mem_decoded.mp hy
    exact h.silent.mp (hsilent x hx y.1 he)
  rw [← log.through_append_between hlt, foldOf_append]
  exact hrun.symm.trans h

end Entries

/-! Saved engines -/

section Resumable

variable {market : MarketConfig} {log : InputLog} {t : EngineState}

theorem Resumable.createState (market : MarketConfig) (log : InputLog) :
    Resumable market log (createState market) := by
  refine ⟨.zero, Or.inl rfl, Or.inl rfl, le_rfl, ?_, fun x _ h h' => absurd h' (not_le.mpr h)⟩
  rw [log.through_zero]
  exact .refl _

theorem Resumable.add {log' : InputLog} {x : InputEntry} (h : Resumable market log t)
    (hadd : log.add x = some log') : Resumable market log' t := by
  obtain ⟨newest, hnewest, hmarks, hle, hagree, hsilent⟩ := h
  refine ⟨newest, hnewest.add hadd, hmarks.add hadd, hle, ?_, fun y hy hlo hhi => ?_⟩
  · rw [Log.through_add hnewest hadd]
    exact hagree
  · rcases (Log.mem_of_add hadd).mp hy with hy | rfl
    · exact hsilent y hy hlo hhi
    · exact absurd hhi (not_le.mpr (hnewest.lt_of_add hadd))

theorem Resumable.same {u : EngineState} (h : Resumable market log t) (hu : SameUpToOrder t u) :
    Resumable market log u := by
  obtain ⟨newest, hnewest, hmarks, hle, hagree, hsilent⟩ := h
  have hid := hu.lastInputId
  have hsame := Agree.of_same hu
  refine ⟨newest, hnewest, hid ▸ hmarks, hid ▸ hle, hagree.trans hsame, ?_⟩
  rw [hid]
  exact fun x hx hlo hhi e he => hsame.silent.mpr (hsilent x hx hlo hhi e he)

theorem Resumable.recovered (h : Resumable market log t) :
    Agree (foldOf market log.entries) (replay t (log.after t.lastInputId)) ∧
      (replay t (log.after t.lastInputId)).lastInputId = log.lastId := by
  obtain ⟨newest, hnewest, hmarks, hle, hagree, hsilent⟩ := h
  have hkeys := hagree.keysOK (keysOK_foldOf market _)
  have hold : Agree t
      (run t (decoded ((log.after t.lastInputId).filter fun x => x.id ≤ newest))).1 := by
    refine run_silent fun y hy => ?_
    obtain ⟨x, hx, he, -⟩ := mem_decoded.mp hy
    obtain ⟨hx, hhi⟩ := List.mem_filter.mp hx
    obtain ⟨hx, hlo⟩ := Log.mem_after.mp hx
    exact hsilent x hx hlo (by simpa using hhi) y.1 he
  have hnew := (hagree.trans hold).run (keysOK_foldOf market _) (decoded (log.after newest))
  rw [← foldOf_append, log.through_append_after] at hnew
  have hreplay := run_replay_alike (SameUpToOrder.refl t).alike hkeys (log.after t.lastInputId)
  refine ⟨hnew.trans ?_, (replay_lastInputId _ _).trans hmarks.last_after⟩
  have hsplit : decoded (log.after t.lastInputId) =
      decoded ((log.after t.lastInputId).filter fun x => x.id ≤ newest) ++
        decoded (log.after newest) := by
    conv_lhs => rw [log.after_eq_append hle]
    exact List.filterMap_append
  rw [hsplit, run_append] at hreplay
  exact .of_alike (SameUpToOrder.refl _).alike hreplay

end Resumable

/-! One step -/

section Step

variable {cfg : Config} {w w' : Watched} {m m' : Memory} {x : InputEntry}

theorem Sound.init (cfg : Config) : Sound cfg .init where
  fromLog := fromLog_init
  delivered := Or.inl rfl
  newest := Or.inl rfl
  running := fun _ hm => nomatch hm
  answered := fun _ hid => nomatch hid
  acked := fun _ hx => nomatch hx
  saved := fun _ hf => nomatch hf

/-- What is settled has its outputs in the output stream. -/
theorem Sound.published (hs : Sound cfg w) (hx : x ∈ w.system.log.entries)
    (h : Settled cfg w x) : outputsOf cfg.market w.system.log x ⊆ w.system.output := by
  rcases h with h | h
  · obtain ⟨y, hy, hid, hout⟩ := hs.answered x.id h
    rw [← Log.eq_of_id hy hx hid]
    exact hout
  · rw [h.outputs]
    exact List.nil_subset _

/-- The history of a step: the log is the same and more may be answered. -/
structure Grows (w w' : Watched) : Prop where
  log : w'.system.log = w.system.log
  answered : w.answered ⊆ w'.answered
  output : w.system.output ⊆ w'.system.output

theorem Settled.grows (h : Settled cfg w x) (hw : Grows w w') : Settled cfg w' x := by
  refine h.imp (fun h => hw.answered h) fun h => ?_
  rw [hw.log]
  exact h

/-- A step that leaves the engine alone, as far as the running process goes. -/
theorem Running.grows (h : Running cfg w m) (hw : Grows w w') (hnewest : w'.newest = w.newest)
    (hengine : m'.engine = m.engine) (hreplayed : m'.replayedThrough = m.replayedThrough)
    (hwork : WorkOK cfg w' m'.work)
    (hflight : ∀ x ∈ w.system.log.entries, InFlight m.work x.id →
      Settled cfg w' x ∨ InFlight m'.work x.id) : Running cfg w' m' where
  agree := by
    rw [hw.log, hnewest, hengine]
    exact h.agree
  marks := by
    rw [hw.log, hengine]
    exact h.marks
  lastInputId := by
    rw [hnewest, hengine]
    exact h.lastInputId
  replayed := by
    rw [hnewest, hreplayed]
    exact h.replayed
  folded := by
    rw [hw.log, hnewest]
    intro x hx hle
    rcases h.folded x hx hle with hset | hin
    · exact Or.inl (hset.grows hw)
    · exact hflight x hx hin
  work := hwork

/-- What processing an event in turn does: the engine has folded the entry, and
returns its outputs unless they are settled. -/
theorem Running.processed (h : Running cfg w m) (hs : Sound cfg w) (hidle : m.work = .idle)
    (hx : x ∈ w.system.log.entries) {e : EngineInputEvent}
    (he : decodeInputEvent x.data = some e) (hturn : InTurn cfg w m.engine x.id e) :
    Agree (foldOf cfg.market (w.system.log.through (max w.newest x.id)))
      (process m.engine e x.id).1 ∧
    (∀ y ∈ w.system.log.entries, y.id ≤ max w.newest x.id → Settled cfg w y ∨ y.id = x.id) ∧
    outputsOf cfg.market w.system.log x ⊆ w.system.output ++ (process m.engine e x.id).2 := by
  have hfolded : ∀ y ∈ w.system.log.entries, y.id ≤ w.newest → Settled cfg w y := by
    intro y hy hle
    refine (h.folded y hy hle).resolve_right ?_
    rintro ⟨msg, outputs, hwork, -⟩
    rw [hidle] at hwork
    cases hwork
  rcases hturn with ⟨hlt, hbetween, horder⟩ | ⟨hle, hsilent⟩
  · have hbefore := agree_between h.agree hlt hbetween
    have hkeys := keysOK_foldOf cfg.market (w.system.log.before x.id)
    rw [max_eq_right hlt.le]
    refine ⟨?_, fun y hy hyx => ?_, ?_⟩
    · rw [Log.through_eq hx, foldOf_append, decoded_event he]
      exact hbefore.process hkeys e x.id
    · rcases hyx.lt_or_eq with hyx | hyx
      · refine Or.inl ?_
        rcases le_or_gt y.id w.newest with hold | hnew
        · exact hfolded y hy hold
        · have hmem := Log.mem_between.mpr ⟨hy, hnew, hyx⟩
          refine Or.inr fun e' he' => ?_
          have hy' := agree_between h.agree hnew fun z hz => by
            obtain ⟨hz, hlo, hhi⟩ := Log.mem_between.mp hz
            exact hbetween z (Log.mem_between.mpr ⟨hz, hlo, hhi.trans hyx⟩)
          exact (hy'.silent.mp (hbetween y hmem e' he')).quiet
      · exact Or.inr hyx
    · have hout := hbefore.outputs hkeys horder x.id
      rw [hout]
      unfold outputsOf
      rw [he]
      exact List.subset_append_right _ _
  · have hproc := hsilent.process x.id
    rw [max_eq_left hle]
    refine ⟨h.agree.trans hproc.1, fun y hy hyx => Or.inl (hfolded y hy hyx), ?_⟩
    exact List.Subset.trans (hs.published hx (hfolded x hx hle)) (List.subset_append_left _ _)

theorem answeredBy_eq {s : System} (hm : s.memory = some m) (a : Action) :
    answeredBy cfg s a = (answers cfg m a).toList := by
  unfold answeredBy
  rw [hm]
  rfl

theorem answeredBy_none {s : System} {a : Action} (h : ∀ m, answers cfg m a = none) :
    answeredBy cfg s a = [] := by
  unfold answeredBy
  simp [h]

/-- A step over the same log, by what it changes. -/
theorem Sound.grows (hs : Sound cfg w) (hw : Grows w w') (hfrom : FromLog w'.system)
    (hdelivered : w.system.log.Marks w'.system.group.lastDelivered)
    (hnewest : w.system.log.Marks w'.newest)
    (hrunning : ∀ m ∈ w'.system.memory, Running cfg w' m)
    (hanswered : ∀ id ∈ w'.answered, id ∈ w.answered ∨ ∃ x ∈ w.system.log.entries, x.id = id ∧
      outputsOf cfg.market w.system.log x ⊆ w'.system.output)
    (hacked : ∀ x ∈ w.system.log.entries, w'.system.group.Acked x.id →
      w.system.group.Acked x.id ∨ Settled cfg w' x)
    (hsaved : ∀ f ∈ w'.system.files, f ∈ w.system.files ∨
      ∃ t, IsSave cfg f t ∧ Resumable cfg.market w.system.log t) : Sound cfg w' where
  fromLog := hfrom
  delivered := hw.log ▸ hdelivered
  newest := hw.log ▸ hnewest
  running := hrunning
  answered := by
    rw [hw.log]
    intro id hid
    rcases hanswered id hid with hid | hid
    · obtain ⟨x, hx, heq, hout⟩ := hs.answered id hid
      exact ⟨x, hx, heq, List.Subset.trans hout hw.output⟩
    · exact hid
  acked := by
    rw [hw.log]
    intro x hx hack
    rcases hacked x hx hack with hack | hset
    · exact (hs.acked x hx hack).grows hw
    · exact hset
  saved := by
    rw [hw.log]
    exact fun f hf => (hsaved f hf).elim (hs.saved f) id

theorem Sound.add (hs : Sound cfg w) {entry : InputEntry} {log : InputLog}
    (hadd : w.system.log.add entry = some log)
    (hfrom : FromLog { w.system with log := log }) :
    Sound cfg { w with system := { w.system with log := log } } := by
  have hset : ∀ x ∈ w.system.log.entries, Settled cfg w x →
      Settled cfg { w with system := { w.system with log := log } } x :=
    fun x hx h => h.imp_right fun h => h.add hadd hx
  have hmem (x : InputEntry) : x ∈ log.entries ↔ x ∈ w.system.log.entries ∨ x = entry :=
    Log.mem_of_add hadd
  refine ⟨hfrom, hs.delivered.add hadd, hs.newest.add hadd, fun m hm => ?_, fun id hid => ?_,
    fun x hx hack => ?_, fun f hf => ?_⟩
  · have h := hs.running m hm
    refine ⟨?_, h.marks.add hadd, h.lastInputId, h.replayed, fun x hx hle => ?_, ?_⟩
    · rw [Log.through_add hs.newest hadd]
      exact h.agree
    · rcases (hmem x).mp hx with hx | rfl
      · exact (h.folded x hx hle).imp_left (hset x hx)
      · exact absurd hle (not_le.mpr (hs.newest.lt_of_add hadd))
    · have hold := hs.fromLog m hm
      have hwork := h.work
      cases hw : m.work with
      | idle => trivial
      | publishing msg outputs =>
        rw [hw] at hwork hold
        have hx := hold msg (Or.inr rfl)
        show outputsOf cfg.market log msg.toEntry ⊆ _
        rw [outputsOf_add hadd hx]
        exact hwork
      | acking msg | deadLettering msg | deadAcking msg =>
        rw [hw] at hwork hold
        exact hset _ (hold msg (Or.inr rfl)) hwork
  · obtain ⟨x, hx, heq, hout⟩ := hs.answered id hid
    refine ⟨x, (hmem x).mpr (Or.inl hx), heq, ?_⟩
    rw [outputsOf_add hadd hx]
    exact hout
  · rcases (hmem x).mp hx with hx | rfl
    · exact hset x hx (hs.acked x hx hack)
    · exact absurd hack.1 (not_le.mpr (hs.delivered.lt_of_add hadd))
  · obtain ⟨t, ht, hres⟩ := hs.saved f hf
    exact ⟨t, ht, hres.add hadd⟩

theorem Sound.recovered (hs : Sound cfg w) {found : List ℕ}
    (h : recover cfg w.system.log (found.filterMap fun i => w.system.files[i]?) = some m) :
    Agree (foldOf cfg.market w.system.log.entries) m.engine ∧
      m.engine.lastInputId = w.system.log.lastId ∧ m.replayedThrough = m.engine.lastInputId ∧
      m.work = .idle := by
  obtain ⟨t, ht, hm⟩ := Option.bind_eq_some_iff.mp h
  obtain rfl := Option.some.inj hm
  have hfound : ∀ f ∈ found.filterMap fun i => w.system.files[i]?,
      ∃ u, IsSave cfg f u ∧ Resumable cfg.market w.system.log u := by
    intro f hf
    obtain ⟨i, -, hi⟩ := List.mem_filterMap.mp hf
    exact hs.saved f (List.mem_of_getElem? hi)
  have hres : Resumable cfg.market w.system.log t := by
    rcases loadEngine_cases hfound ht with rfl | ⟨u, hu, hsame⟩
    · exact .createState _ _
    · exact hu.same hsame
  exact ⟨hres.recovered.1, hres.recovered.2, rfl, rfl⟩

theorem newestAfter_dispatch (hm : w.system.memory = some m) (s' : System) :
    newestAfter cfg w s' .dispatch =
      ((processing cfg m).map fun p => max w.newest p.1.id).getD w.newest := by
  unfold newestAfter
  rw [hm]
  rfl

theorem not_inFlight {work : Work} (h : work = .idle) (id : StreamId) : ¬ InFlight work id := by
  rintro ⟨msg, outputs, hwork, -⟩
  rw [h] at hwork
  cases hwork

/-- A step of the loop that neither processes an event nor publishes. -/
theorem Sound.continues (hs : Sound cfg w) (hm : w.system.memory = some m) {s' : System}
    (hlog : s'.log = w.system.log) (houtput : s'.output = w.system.output)
    (hsaved : ∀ f ∈ s'.files, f ∈ w.system.files ∨
      ∃ t, IsSave cfg f t ∧ Resumable cfg.market w.system.log t)
    (hmem : s'.memory = some m') (hfrom : FromLog s')
    (hengine : m'.engine = m.engine) (hreplayed : m'.replayedThrough = m.replayedThrough)
    (hwork : WorkOK cfg w m'.work) (hflight : ∀ id, InFlight m.work id → InFlight m'.work id)
    (hdelivered : w.system.log.Marks s'.group.lastDelivered)
    (hacked : ∀ x ∈ w.system.log.entries, s'.group.Acked x.id →
      w.system.group.Acked x.id ∨ Settled cfg w x) :
    Sound cfg { w with system := s' } := by
  have hw : Grows w { w with system := s' } :=
    ⟨hlog, List.Subset.refl _, houtput ▸ List.Subset.refl _⟩
  refine hs.grows hw hfrom hdelivered hs.newest (fun n hn => ?_) (fun id hid => Or.inl hid)
    (fun x hx hack => (hacked x hx hack).imp_right fun h => h.grows hw) hsaved
  obtain rfl := Option.some.inj (hmem.symm.trans hn)
  refine (hs.running m hm).grows hw rfl hengine hreplayed ?_
    fun x _ hin => Or.inr (hflight x.id hin)
  cases hwork' : m'.work with
  | idle => trivial
  | publishing msg outputs =>
    rw [hwork'] at hwork
    show outputsOf cfg.market s'.log msg.toEntry ⊆ s'.output ++ outputs
    rw [hlog, houtput]
    exact hwork
  | acking msg | deadLettering msg | deadAcking msg =>
    rw [hwork'] at hwork
    exact Settled.grows hwork hw

/-- After an event has been processed: its outputs are published next, or there are none. -/
theorem Sound.processed (hs : Sound cfg w) (hrun : Running cfg w m) {msg : InputMessage}
    {batch : List InputMessage} {t : EngineState} {outputs : List EngineOutputEvent}
    (hx : msg.toEntry ∈ w.system.log.entries) (hid : t.lastInputId = msg.id)
    (hagree : Agree (foldOf cfg.market (w.system.log.through (max w.newest msg.id))) t)
    (hfolded : ∀ y ∈ w.system.log.entries, y.id ≤ max w.newest msg.id →
      Settled cfg w y ∨ y.id = msg.id)
    (hout : outputsOf cfg.market w.system.log msg.toEntry ⊆ w.system.output ++ outputs)
    (hfrom : FromLog { w.system with
      memory := some { m with engine := t, batch := batch, work := publish msg outputs } }) :
    Sound cfg
      { system := { w.system with
          memory := some { m with engine := t, batch := batch, work := publish msg outputs } }
        newest := max w.newest msg.id
        answered := w.answered ++ if outputs = [] then [msg.id] else [] } := by
  have hnewest : w.system.log.Marks (max w.newest msg.id) := by
    rcases max_choice w.newest msg.id with h | h
    · rw [h]
      exact hs.newest
    · rw [h]
      exact Or.inr ⟨_, hx, rfl⟩
  have hnew (h : outputs = []) (y : InputEntry) (hy : y.id = msg.id) :
      y.id ∈ w.answered ++ if outputs = [] then [msg.id] else [] := by
    rw [if_pos h, hy]
    exact List.mem_append_right _ (List.mem_singleton_self _)
  refine hs.grows ⟨rfl, List.subset_append_left _ _, List.Subset.refl _⟩ hfrom hs.delivered
    hnewest (fun n hn => ?_) (fun id hans => ?_) (fun y _ hack => Or.inl hack) fun f hf => Or.inl hf
  · obtain rfl := Option.some.inj hn
    refine ⟨hagree, ?_, ?_, hrun.replayed.trans (le_max_left _ _), fun y hy hle => ?_, ?_⟩
    · rw [hid]
      exact Or.inr ⟨_, hx, rfl⟩
    · rw [hid]
      exact le_max_right _ _
    · rcases hfolded y hy hle with hset | heq
      · exact Or.inl (hset.imp_left fun h => List.mem_append_left _ h)
      · by_cases hnil : outputs = []
        · exact Or.inl (Or.inl (hnew hnil y heq))
        · exact Or.inr ⟨msg, outputs, if_neg hnil, heq.symm⟩
    · unfold publish
      by_cases hnil : outputs = []
      · rw [if_pos hnil]
        exact Or.inl (hnew hnil msg.toEntry rfl)
      · rw [if_neg hnil]
        exact hout
  · rcases List.mem_append.mp hans with hans | hans
    · exact Or.inl hans
    · split_ifs at hans with hnil
      · rw [hnil, List.append_nil] at hout
        exact Or.inr ⟨_, hx, (List.mem_singleton.mp hans).symm, hout⟩
      · cases hans

theorem Sound.dispatched (hs : Sound cfg w) (hC : Careful cfg w .dispatch)
    (hm : w.system.memory = some m) (hidle : m.work = .idle) {msg : InputMessage}
    {batch : List InputMessage} (hbatch : m.batch = msg :: batch)
    (hfrom : FromLog
      { w.system with memory := some (dispatch cfg { m with batch := batch } msg) }) :
    Sound cfg
      { system := { w.system with memory := some (dispatch cfg { m with batch := batch } msg) }
        newest := newestAfter cfg w
          { w.system with memory := some (dispatch cfg { m with batch := batch } msg) } .dispatch
        answered := w.answered ++ answeredBy cfg w.system .dispatch } := by
  have hrun := hs.running m hm
  have hx : msg.toEntry ∈ w.system.log.entries :=
    hs.fromLog m hm msg (Or.inl (hbatch ▸ List.mem_cons_self))
  obtain ⟨hturn, hdead⟩ := hC m hm
  have hans : answeredBy cfg w.system .dispatch = (answers cfg m .dispatch).toList :=
    answeredBy_eq hm _
  rw [hans, newestAfter_dispatch hm]
  unfold answers
  rcases dispatch_cases cfg hbatch with
    ⟨hmax, hp, heq⟩ | ⟨hid, hp, heq⟩ | ⟨-, hp, heq⟩ | ⟨e, he, hp, heq⟩
  · rw [heq] at hfrom ⊢
    rw [hp]
    show Sound cfg { w with system := _, answered := w.answered ++ [] }
    rw [List.append_nil]
    exact hs.continues hm rfl rfl (fun f hf => Or.inl hf) rfl hfrom rfl rfl (hdead msg (by rw [hbatch]; rfl) hmax)
      (fun id hin => absurd hin (not_inFlight hidle id)) hs.delivered fun x _ hack => Or.inl hack
  · have hset : Settled cfg w msg.toEntry :=
      (hrun.folded _ hx (hid.trans hrun.replayed)).resolve_right (not_inFlight hidle _)
    rw [heq] at hfrom ⊢
    rw [hp]
    show Sound cfg { w with system := _, answered := w.answered ++ [] }
    rw [List.append_nil]
    exact hs.continues hm rfl rfl (fun f hf => Or.inl hf) rfl hfrom rfl rfl hset
      (fun id hin => absurd hin (not_inFlight hidle id)) hs.delivered fun x _ hack => Or.inl hack
  · rw [heq] at hfrom ⊢
    rw [hp]
    show Sound cfg { w with system := _, answered := w.answered ++ [] }
    rw [List.append_nil]
    exact hs.continues hm rfl rfl (fun f hf => Or.inl hf) rfl hfrom rfl rfl hrun.work
      (fun id hin => absurd hin (not_inFlight hidle id)) hs.delivered fun x _ hack => Or.inl hack
  · obtain ⟨hagree, hfolded, hout⟩ := hrun.processed hs hidle hx he (hturn (msg, e) hp)
    rw [heq] at hfrom ⊢
    rw [hp]
    have hsound := hs.processed (m := m) hrun hx (process_lastInputId m.engine e msg.id) hagree
      hfolded hout hfrom
    have hans : (do
        let (msg, e) ← some (msg, e)
        if (process m.engine e msg.id).2 = [] then some msg.id else none : Option StreamId).toList =
          if (process m.engine e msg.id).2 = [] then [msg.id] else [] := by
      show (if (process m.engine e msg.id).2 = [] then some msg.id else none : Option StreamId).toList = _
      split_ifs <;> rfl
    rw [hans]
    exact hsound

theorem Sound.publishes (hs : Sound cfg w) {reply : Reply} (hC : Careful cfg w (.publish reply))
    (hm : w.system.memory = some m) {msg : InputMessage} {out : EngineOutputEvent}
    {outputs : List EngineOutputEvent} (hwork : m.work = .publishing msg (out :: outputs))
    (hfrom : FromLog { w.system with
      output := if reply.executed then w.system.output ++ [out] else w.system.output
      memory := some { m with work := if reply = .ok then publish msg outputs else .idle } }) :
    Sound cfg
      { system := { w.system with
          output := if reply.executed then w.system.output ++ [out] else w.system.output
          memory := some { m with work := if reply = .ok then publish msg outputs else .idle } }
        newest := w.newest
        answered := w.answered ++ answeredBy cfg w.system (.publish reply) } := by
  have hrun := hs.running m hm
  have hx : msg.toEntry ∈ w.system.log.entries :=
    hs.fromLog m hm msg (Or.inr (by rw [hwork]; rfl))
  have hreach : outputsOf cfg.market w.system.log msg.toEntry ⊆
      w.system.output ++ out :: outputs := by
    have h := hrun.work
    rw [hwork] at h
    exact h
  have hcase : reply.executed = true ∧ (reply = .ok ∨ outputs = []) := by
    rcases hC m hm with rfl | ⟨rfl, hlast⟩
    · exact ⟨rfl, Or.inl rfl⟩
    · refine ⟨rfl, Or.inr ?_⟩
      rw [hwork] at hlast
      cases outputs with
      | nil => rfl
      | cons o os => exact hlast.elim
  obtain ⟨hexec, hcase⟩ := hcase
  have hans : answeredBy cfg w.system (.publish reply) =
      if outputs = [] then [msg.id] else [] := by
    rw [answeredBy_eq hm]
    unfold answers
    rw [hwork]
    cases outputs with
    | nil =>
      dsimp only
      rw [if_pos hexec]
      rfl
    | cons o os => rfl
  have hnew (h : outputs = []) (y : InputEntry) (hy : y.id = msg.id) :
      y.id ∈ w.answered ++ if outputs = [] then [msg.id] else [] := by
    rw [if_pos h, hy]
    exact List.mem_append_right _ (List.mem_singleton_self _)
  rw [hans]
  rw [if_pos hexec] at hfrom ⊢
  refine hs.grows ⟨rfl, List.subset_append_left _ _, List.subset_append_left _ _⟩ hfrom hs.delivered
    hs.newest (fun n hn => ?_) (fun id hid => ?_) (fun y _ hack => Or.inl hack) fun f hf => Or.inl hf
  · obtain rfl := Option.some.inj hn
    refine hrun.grows ⟨rfl, List.subset_append_left _ _, List.subset_append_left _ _⟩ rfl rfl rfl
      ?_ fun y _ hin => ?_
    · by_cases hnil : outputs = []
      · by_cases hok : reply = .ok
        · unfold publish
          rw [if_pos hok, if_pos hnil]
          exact Or.inl (hnew hnil msg.toEntry rfl)
        · rw [if_neg hok]
          trivial
      · unfold publish
        rw [if_pos (hcase.resolve_right hnil), if_neg hnil]
        show _ ⊆ (w.system.output ++ [out]) ++ outputs
        rw [List.append_assoc]
        exact hreach
    · obtain ⟨msg', outputs', hwork', heq⟩ := hin
      rw [hwork] at hwork'
      obtain ⟨rfl, -⟩ := Work.publishing.inj hwork'
      by_cases hnil : outputs = []
      · exact Or.inl (Or.inl (hnew hnil y heq.symm))
      · refine Or.inr ⟨msg, outputs, ?_, heq⟩
        unfold publish
        rw [if_pos (hcase.resolve_right hnil), if_neg hnil]
  · rcases List.mem_append.mp hid with hid | hid
    · exact Or.inl hid
    · split_ifs at hid with hnil
      · rw [hnil] at hreach
        exact Or.inr ⟨_, hx, (List.mem_singleton.mp hid).symm, hreach⟩
      · cases hid

/-- Acknowledging a message that is settled. -/
theorem acked_reply (hx : x ∈ w.system.log.entries) (hset : Settled cfg w x) (reply : Reply) :
    ∀ y ∈ w.system.log.entries,
      (if reply.executed then w.system.group.ack x.id else w.system.group).Acked y.id →
        w.system.group.Acked y.id ∨ Settled cfg w y := by
  intro y hy hack
  split_ifs at hack
  · refine (Group.acked_ack hack).imp_right fun heq => ?_
    rw [Log.eq_of_id hy hx heq]
    exact hset
  · exact Or.inl hack

theorem sound_step {a : Action} (hC : Careful cfg w a) (h : watch cfg w a = some w')
    (hs : Sound cfg w) : Sound cfg w' := by
  obtain ⟨s', hstep, rfl⟩ := Option.map_eq_some_iff.mp h
  have hfrom := fromLog_step hstep hs.fromLog
  cases step_cases hstep with
  | add hlog =>
    rw [answeredBy_none fun _ => rfl, List.append_nil]
    exact hs.add hlog hfrom
  | @recover found m hdown hrec =>
    rw [answeredBy_none fun _ => rfl, List.append_nil]
    obtain ⟨hagree, hid, hreplayed, hidle⟩ := hs.recovered hrec
    have hmarks := hid ▸ w.system.log.marks_lastId
    refine hs.grows ⟨rfl, List.Subset.refl _, List.Subset.refl _⟩ hfrom hs.delivered hmarks
      (fun n hn => ?_) (fun id hans => Or.inl hans) (fun x _ hack => Or.inl hack)
      fun f hf => Or.inl hf
    obtain rfl := Option.some.inj hn
    refine ⟨?_, hmarks, le_rfl, hreplayed.le, fun x hx _ => Or.inl (hC x hx), ?_⟩
    · show Agree (foldOf cfg.market (w.system.log.through m.engine.lastInputId)) m.engine
      rw [hid, w.system.log.through_lastId]
      exact hagree
    · rw [hidle]
      trivial
  | crash hm =>
    rw [answeredBy_none fun _ => rfl, List.append_nil]
    exact hs.grows ⟨rfl, List.Subset.refl _, List.Subset.refl _⟩ hfrom hs.delivered hs.newest
      (fun _ hn => nomatch hn) (fun id hid => Or.inl hid) (fun x _ hack => Or.inl hack)
      fun f hf => Or.inl hf
  | readNew reply hm hwork =>
    rw [answeredBy_none fun _ => rfl, List.append_nil]
    refine hs.continues hm rfl rfl (fun f hf => Or.inl hf) rfl hfrom rfl rfl (hs.running _ hm).work (fun id hin => hin)
      ?_ fun x hx hack => Or.inl ?_
    · dsimp only
      split_ifs
      · exact Group.marks_readNew hs.delivered
      · exact hs.delivered
    · dsimp only at hack
      split_ifs at hack
      · exact Group.acked_readNew hx hack
      · exact hack
  | reclaim idle reply hm hwork =>
    rw [answeredBy_none fun _ => rfl, List.append_nil]
    refine hs.continues hm rfl rfl (fun f hf => Or.inl hf) rfl hfrom rfl rfl (hs.running _ hm).work (fun id hin => hin)
      ?_ fun x hx hack => Or.inl ?_
    · dsimp only
      split_ifs
      · exact hs.delivered
      · exact hs.delivered
    · dsimp only at hack
      split_ifs at hack
      · exact Group.acked_reclaimAbandoned.mp hack
      · exact hack
  | dispatch hm hwork hbatch => exact hs.dispatched hC hm hwork hbatch hfrom
  | publish reply hm hwork => exact hs.publishes hC hm hwork hfrom
  | @ack reply m msg hm hwork | @deadAck reply m msg hm hwork =>
    rw [answeredBy_none fun _ => rfl, List.append_nil]
    have hx := hs.fromLog m hm msg (Or.inr (by rw [hwork]; rfl))
    have hset := (hs.running m hm).work
    rw [hwork] at hset
    refine hs.continues hm rfl rfl (fun f hf => Or.inl hf) rfl hfrom rfl rfl trivial ?_ ?_
      (acked_reply hx hset reply)
    · rintro id ⟨_, _, hflight, -⟩
      rw [hwork] at hflight
      cases hflight
    · dsimp only
      split_ifs
      · exact hs.delivered
      · exact hs.delivered
  | @deadLetter reply m msg hm hwork =>
    rw [answeredBy_none fun _ => rfl, List.append_nil]
    have hset := (hs.running m hm).work
    rw [hwork] at hset
    refine hs.continues hm rfl rfl (fun f hf => Or.inl hf) rfl hfrom rfl rfl ?_ ?_ hs.delivered
      fun x _ hack => Or.inl hack
    · dsimp only
      split_ifs
      · exact hset
      · trivial
    · rintro id ⟨_, _, hflight, -⟩
      rw [hwork] at hflight
      cases hflight
  | @saveSnapshot file savedAt m hm =>
    rw [answeredBy_none fun _ => rfl, List.append_nil]
    have hrun := hs.running m hm
    refine hs.continues hm rfl rfl (fun f hf => ?_) hm hfrom rfl rfl hrun.work (fun id hin => hin)
      hs.delivered fun x _ hack => Or.inl hack
    refine (List.mem_append.mp hf).imp_right fun hf => ?_
    rw [List.mem_singleton.mp hf]
    exact ⟨m.engine, ⟨savedAt, rfl⟩, w.newest, hs.newest, hrun.marks, hrun.lastInputId,
      hrun.agree, hC m hm⟩

end Step

/-! Runs -/

/-- A run of the system has a history. -/
theorem runs_watched {cfg : Config} {as : List Action} {w : Watched} {s : System}
    (h : runs (step cfg) w.system as = some s) :
    ∃ w', runs (watch cfg) w as = some w' ∧ w'.system = s := by
  induction as generalizing w with
  | nil => exact ⟨w, rfl, Option.some.inj h⟩
  | cons a as ih =>
    obtain ⟨t, ht, hrest⟩ := Option.bind_eq_some_iff.mp h
    obtain ⟨v, hwatch, rfl⟩ : ∃ v, watch cfg w a = some v ∧ v.system = t := by
      unfold watch
      rw [ht]
      exact ⟨_, rfl, rfl⟩
    obtain ⟨w', hw', hs⟩ := ih hrest
    refine ⟨w', ?_, hs⟩
    unfold runs
    rw [hwatch]
    exact hw'

/-- In a careful run, an entry that is acknowledged has had its outputs published. -/
theorem no_lost_output (cfg : Config) {as : List Action} {s : System}
    (hC : Along (watch cfg) (Careful cfg) .init as) (hrun : runs (step cfg) .init as = some s)
    {x : InputEntry} (hx : x ∈ s.log.entries) (hack : s.group.Acked x.id) :
    outputsOf cfg.market s.log x ⊆ s.output := by
  obtain ⟨w, hw, rfl⟩ := runs_watched (w := .init) hrun
  have hs := runs_invariant (fun _ _ _ hC h hs => sound_step hC h hs) (Sound.init cfg) hC hw
  exact hs.published hx (hs.acked x hx hack)

end EngineRuntime

namespace Fixture

def quietPrice : InputEntry := ⟨⟨2, 0⟩, some (evt none (.indexPriceUpdated ⟨"BTCUSDT", 95, 1, 0⟩))⟩

/-- An acknowledgement fails and the reply to the last output of a message is lost;
both messages are reclaimed, the first before a snapshot and a crash. -/
def answeredRun : List EngineRuntime.Action :=
  [.recover [], .add newUser, .add quietPrice, .readNew .ok, .dispatch, .publish .ok, .ack .failed,
    .dispatch, .ack .ok, .reclaim [⟨1, 0⟩] .ok, .dispatch, .ack .ok, .saveSnapshot "a" 0, .crash,
    .recover [0], .add deposit, .readNew .ok, .dispatch, .publish .lost, .reclaim [⟨3, 0⟩] .ok,
    .dispatch, .ack .ok]

/-- A recovery folds an entry, and its message is acknowledged unanswered. -/
def foldedRun : List EngineRuntime.Action :=
  [.add newUser, .recover [], .readNew .ok, .dispatch, .ack .ok]

end Fixture

namespace EngineRuntime

open Fixture in
theorem no_lost_output_answered :
    ∃ s, runs (step CONFIG) .init answeredRun = some s ∧ deposit ∈ s.log.entries ∧
      s.group.Acked deposit.id ∧ outputsOf MARKET s.log deposit ⊆ s.output := by
  have hfacts : ∃ s ∈ runs (step CONFIG) .init answeredRun, deposit ∈ s.log.entries ∧
      s.group.Acked deposit.id := by decide +kernel
  obtain ⟨s, hs, hx, hack⟩ := hfacts
  exact ⟨s, hs, hx, hack, no_lost_output CONFIG (by decide +kernel) hs hx hack⟩

open Fixture in
/-- The entry is acknowledged, and the output stream is empty. -/
theorem folded_unanswered :
    ∃ s, runs (step CONFIG) .init foldedRun = some s ∧ newUser ∈ s.log.entries ∧
      s.group.Acked newUser.id ∧ ¬ outputsOf MARKET s.log newUser ⊆ s.output := by
  have hfacts : ∃ s ∈ runs (step CONFIG) .init foldedRun, newUser ∈ s.log.entries ∧
      s.group.Acked newUser.id ∧ outputsOf MARKET s.log newUser ≠ [] ∧ s.output = [] := by
    decide +kernel
  obtain ⟨s, hs, hx, hack, hne, hnil⟩ := hfacts
  refine ⟨s, hs, hx, hack, fun hsub => hne ?_⟩
  rw [hnil] at hsub
  exact List.subset_nil.mp hsub

end EngineRuntime

end Perps
