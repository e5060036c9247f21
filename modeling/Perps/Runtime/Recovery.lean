import Perps.Proofs.Idempotence
import Perps.Proofs.Restore
import Perps.Proofs.SavedSnapshot
import Perps.Runtime.EngineRuntime

/-! Recovery as a fold of the log. A replay is a run over the entries that decode
and does not see the order of the maps, and a file loads as the engine that was
saved in it. -/

namespace Perps

open Lib

namespace EngineRuntime

open Engine

/-- The entries that decode. -/
def decoded (entries : List InputEntry) : List (EngineInputEvent × StreamId) :=
  entries.filterMap fun x => (decodeInputEvent x.data).map fun e => (e, x.id)

/-- The fold of `Engine.process` over the entries that decode. -/
def foldOf (market : MarketConfig) (entries : List InputEntry) : EngineState :=
  (run (createState market) (decoded entries)).1

theorem keysOK_foldOf (market : MarketConfig) (entries : List InputEntry) :
    KeysOK (foldOf market entries) := keysOK_steps (keysOK_createState market) _

theorem foldOf_append (market : MarketConfig) (xs ys : List InputEntry) :
    foldOf market (xs ++ ys) = (run (foldOf market xs) (decoded ys)).1 := by
  have hsplit : decoded (xs ++ ys) = decoded xs ++ decoded ys := List.filterMap_append
  unfold foldOf
  rw [hsplit, run_append]

theorem decoded_skip {x : InputEntry} (he : decodeInputEvent x.data = none) (xs : List InputEntry) :
    decoded (x :: xs) = decoded xs := List.filterMap_cons_none (by rw [he]; rfl)

theorem decoded_event {x : InputEntry} {e : EngineInputEvent}
    (he : decodeInputEvent x.data = some e) (xs : List InputEntry) :
    decoded (x :: xs) = (e, x.id) :: decoded xs := List.filterMap_cons_some (by rw [he]; rfl)

theorem mem_decoded {entries : List InputEntry} {y : EngineInputEvent × StreamId} :
    y ∈ decoded entries ↔ ∃ x ∈ entries, decodeInputEvent x.data = some y.1 ∧ x.id = y.2 := by
  obtain ⟨e, id⟩ := y
  simp [decoded]

/-! Replay -/

section Replay

variable {d : ℕ} {R : List String → List String → Prop} [OrdMap.KeyOrder R] {s t : EngineState}

theorem replayEntry_event {x : InputEntry} {e : EngineInputEvent}
    (he : decodeInputEvent x.data = some e) (s : EngineState) :
    replayEntry s x = (process s e x.id).1 := by
  unfold replayEntry
  rw [he]

theorem replayEntry_skip {x : InputEntry} (he : decodeInputEvent x.data = none) (s : EngineState) :
    replayEntry s x = { s with lastInputId := x.id } := by
  unfold replayEntry
  rw [he]

theorem replay_lastInputId (s : EngineState) (xs : List InputEntry) :
    (replay s xs).lastInputId = (xs.getLast?.map Entry.id).getD s.lastInputId := by
  induction xs using List.reverseRecOn with
  | nil => rfl
  | append_singleton xs x ih =>
    unfold replay
    rw [List.foldl_append, List.getLast?_concat]
    show (replayEntry _ x).lastInputId = x.id
    cases he : decodeInputEvent x.data with
    | none => rw [replayEntry_skip he]
    | some e => rw [replayEntry_event he, process_lastInputId]

/-- Alike states may stand at any ids. -/
theorem alike_lastInputId (h : Alike d R s t) (id id' : StreamId) :
    Alike d R { s with lastInputId := id } { t with lastInputId := id' } :=
  ⟨by rw [h.rest], h.balances, h.positions, h.positionKeys, h.balanceKeys⟩

/-- A replay is a run over the entries that decode, apart from the last input id. -/
theorem run_replay_alike (h : Alike d R s t) (hkeys : KeysOK s) (xs : List InputEntry) :
    Alike d R (run s (decoded xs)).1 (replay t xs) := by
  induction xs generalizing s t with
  | nil => exact h
  | cons x xs ih =>
    show Alike d R _ (replay (replayEntry t x) xs)
    cases he : decodeInputEvent x.data with
    | none =>
      rw [decoded_skip he, replayEntry_skip he]
      exact ih (alike_lastInputId h s.lastInputId x.id) hkeys
    | some e =>
      rw [decoded_event he, replayEntry_event he]
      exact ih (process_alike h hkeys e x.id) (keysOK_step hkeys e x.id)

/-- The entries after a point take an engine that has folded the others on to the
fold of the log. -/
theorem replay_after {market : MarketConfig} {log : InputLog} {id : StreamId}
    (h : Alike d R (foldOf market (log.through id)) t) :
    Alike d R (foldOf market log.entries) (replay t (log.after id)) := by
  have hrun := run_replay_alike h (keysOK_foldOf market _) (log.after id)
  rw [← foldOf_append, log.through_append_after] at hrun
  exact hrun

/-- States that are alike and have counted the same differ, once serialized, in
the last input id at most. -/
theorem serialize_alike (h : Alike 0 R s t) :
    serialize t = { serialize s with lastInputId := t.lastInputId } := by
  have hsame := (alike_lastInputId h t.lastInputId t.lastInputId).sameUpToOrder rfl
  exact serialize_same hsame

end Replay

/-! Loading -/

/-- The file is a snapshot of the engine. -/
def IsSave (cfg : Config) (f : String × Json) (t : EngineState) : Prop :=
  ∃ savedAt, f.2 = SnapshotStore.save cfg.sha256 t t savedAt

theorem load_save_self (sha256 : Json → String) (file : String) (t : EngineState) (savedAt : ℕ) :
    SnapshotStore.load sha256 file (SnapshotStore.save sha256 t t savedAt) =
      some { state := serialize t, lastInputId := t.lastInputId, file := file } := by
  have hself : SnapshotStore.reread (serialize t) t = serialize t := by
    refine (SnapshotStore.reread_eq_iff t t).mpr ⟨rfl, rfl, rfl, ?_, ?_⟩
    · exact fun u b hb b' hb' => Option.some.inj (hb'.symm.trans hb)
    · exact fun u p hp p' hp' => Option.some.inj (hp'.symm.trans hp)
  rw [SnapshotStore.load_save, hself, if_neg (not_not.mpr rfl)]

/-- The engine is rebuilt from the snapshot of a saved one, or starts anew. -/
theorem loadEngine_cases {cfg : Config} {found : List (String × Json)} {P : EngineState → Prop}
    (hfound : ∀ f ∈ found, ∃ u, IsSave cfg f u ∧ P u) {t : EngineState}
    (h : loadEngine cfg found = some t) :
    t = createState cfg.market ∨ ∃ u, P u ∧ SameUpToOrder u t := by
  unfold loadEngine SnapshotStore.loadLatest at h
  split at h
  · next loaded hloaded =>
    obtain ⟨f, hf, hload⟩ := List.exists_of_findSome?_eq_some hloaded
    obtain ⟨u, ⟨savedAt, hsave⟩, hu⟩ := hfound f hf
    rw [hsave, load_save_self] at hload
    obtain rfl := Option.some.inj hload
    obtain ⟨t', ht', hsame⟩ := restore_same u
    rw [restore_eq] at ht'
    obtain rfl := Option.some.inj (ht'.symm.trans h)
    exact Or.inr ⟨u, hu, hsame⟩
  · exact Or.inl (Option.some.inj h).symm

end EngineRuntime

namespace Fixture

def CONFIG : EngineRuntime.Config := ⟨MARKET, 10, 5, fun _ => "sha"⟩

def newUser : InputEntry := ⟨⟨1, 0⟩, some (evt "c1" (.userCreated ⟨"u", 1000⟩))⟩

def deposit : InputEntry := ⟨⟨3, 0⟩, some (evt "c2" (.balanceDeposited ⟨"u", 500⟩))⟩

end Fixture

end Perps
