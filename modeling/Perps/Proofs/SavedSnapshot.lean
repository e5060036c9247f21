import Perps.Domain.Identifiers
import Perps.Domain.Reachable
import Perps.Proofs.Idempotence
import Perps.Proofs.Restore
import Perps.Runtime.SnapshotStore

/-! A saved snapshot. The file is good exactly if nothing that the snapshot shares
with the engine has changed by the time it is written out: otherwise the counters
are those of the first step and the collections those of the second, which is no
state that the engine was ever in. -/

namespace Perps

open Lib Engine

namespace SnapshotStore

/-- What the two states share is the same in both. -/
structure SharedUnchanged (s t : EngineState) : Prop where
  bids : t.bids = s.bids
  asks : t.asks = s.asks
  appliedCommandIds : t.appliedCommandIds = s.appliedCommandIds
  balances : ∀ u, ∀ b ∈ s.balances.get? u, ∀ b' ∈ t.balances.get? u, b' = b
  positions : ∀ u, ∀ p ∈ s.positions.get? u, ∀ p' ∈ t.positions.get? u, p' = p

/-- The entries of a map, with the values of another where it has them. -/
theorem reread_entries {ν : Type} (m n : OrdMap String ν) :
    (m.sorted stringLe).map (fun x => (x.1, (n.get? x.1).getD x.2)) = m.sorted stringLe ↔
      ∀ u, ∀ v ∈ m.get? u, ∀ v' ∈ n.get? u, v' = v := by
  have hmem (u : String) (v : ν) : (u, v) ∈ m.sorted stringLe ↔ m.get? u = some v :=
    (m.sorted_perm stringLe).mem_iff.trans (m.mem_entries_iff u v)
  have hid : m.sorted stringLe = (m.sorted stringLe).map id := (List.map_id _).symm
  constructor
  · intro h u v hv v' hv'
    rw [hid, List.map_map, List.map_inj_left] at h
    have heq := h (u, v) ((hmem u v).mpr hv)
    simp only [Function.comp_apply, id, Prod.mk.injEq, true_and] at heq
    rw [hv'] at heq
    exact heq
  · intro h
    conv_rhs => rw [hid]
    refine List.map_congr_left fun x hx => ?_
    cases hn : n.get? x.1 with
    | none => rfl
    | some v' => exact congrArg (Prod.mk x.1) (h x.1 x.2 ((hmem _ _).mp hx) v' hn)

theorem reread_eq_iff (s t : EngineState) :
    reread (serialize s) t = serialize s ↔ SharedUnchanged s t := by
  constructor
  · intro h
    exact ⟨congrArg SerializedState.bids h, congrArg SerializedState.asks h,
      congrArg SerializedState.appliedCommandIds h,
      (reread_entries _ _).mp (congrArg SerializedState.balances h),
      (reread_entries _ _).mp (congrArg SerializedState.positions h)⟩
  · rintro ⟨h1, h2, h3, h4, h5⟩
    have h4 := (reread_entries s.balances t.balances).mpr h4
    have h5 := (reread_entries s.positions t.positions).mpr h5
    simp only [reread, serialize, h1, h2, h3, h4, h5]

/-! The counter of applied events -/

theorem process_count (s : EngineState) (e : EngineInputEvent) (id : StreamId) :
    (process s e id).1.appliedCount = s.appliedCount + if alreadyApplied s e then 0 else 1 := by
  by_cases ha : alreadyApplied s e = true
  · rw [process_applied ha, if_pos ha]
    rfl
  · have hb := congrArg (fun b => b.2.2.1) (dispatch_bookkeeping s e).1
    rw [if_neg ha, process_fst, reduce_of_new ha]
    exact congrArg (· + 1) hb

/-- A run that applies nothing moves at most the stream id. -/
theorem run_count (s : EngineState) (evs : List (EngineInputEvent × StreamId)) :
    s.appliedCount ≤ (run s evs).1.appliedCount ∧
      ((run s evs).1.appliedCount = s.appliedCount →
        (run s evs).1 = { s with lastInputId := (run s evs).1.lastInputId }) := by
  induction evs generalizing s with
  | nil => exact ⟨le_rfl, fun _ => rfl⟩
  | cons x xs ih =>
    obtain ⟨hle, hsame⟩ := ih (process s x.1 x.2).1
    have hcount := process_count s x.1 x.2
    rw [run_cons]
    by_cases ha : alreadyApplied s x.1 = true
    · rw [process_applied ha] at hle hsame ⊢
      exact ⟨hle, fun heq => (hsame heq).trans rfl⟩
    · rw [if_neg ha] at hcount
      refine ⟨?_, fun heq => ?_⟩
      · dsimp only
        omega
      · dsimp only at heq
        omega

/-- Two states of one run with the same count and stream id are the same. -/
theorem run_eq_of_count {s : EngineState} {evs : List (EngineInputEvent × StreamId)}
    (hcount : (run s evs).1.appliedCount = s.appliedCount)
    (hid : (run s evs).1.lastInputId = s.lastInputId) : (run s evs).1 = s := by
  rw [(run_count s evs).2 hcount, hid]

/-! Files -/

/-- The file passes the test of a load, and its state is that of the engine at one
moment of the run. -/
def SavedWell (sha256 : Json → String) (savedAt : ℕ) (s : EngineState)
    (before between : List (EngineInputEvent × StreamId)) : Prop :=
  ∃ loaded ∈ load sha256 "" (save sha256 (run s before).1 (run s (before ++ between)).1 savedAt),
    ∃ moment, moment <+: before ++ between ∧ loaded.state = serialize (run s moment).1

theorem load_save (sha256 : Json → String) (file : String) (s t : EngineState) (savedAt : ℕ) :
    load sha256 file (save sha256 s t savedAt) =
      if checksum sha256 (reread (serialize s) t) ≠ checksum sha256 (serialize s) then none
      else some
        { state := reread (serialize s) t, lastInputId := s.lastInputId, file := file } := by
  unfold load save
  rw [Codec.snapshotFile.dec_enc]
  rfl

/-- A snapshot whose state is that of some moment is one of its first step. -/
theorem reread_of_moment {s : EngineState} {before between moment : List (EngineInputEvent × StreamId)}
    {t : EngineState} (hmoment : moment <+: before ++ between)
    (h : reread (serialize (run s before).1) t = serialize (run s moment).1) :
    reread (serialize (run s before).1) t = serialize (run s before).1 := by
  have hcount : (run s before).1.appliedCount = (run s moment).1.appliedCount :=
    congrArg SerializedState.appliedCount h
  have hid : (run s before).1.lastInputId = (run s moment).1.lastInputId :=
    congrArg SerializedState.lastInputId h
  have hsame : (run s moment).1 = (run s before).1 := by
    rcases List.prefix_or_prefix_of_prefix hmoment (List.prefix_append before between) with
      ⟨rest, rfl⟩ | ⟨rest, rfl⟩
    · rw [run_append] at hcount hid ⊢
      exact (run_eq_of_count hcount hid).symm
    · rw [run_append] at hcount hid ⊢
      exact run_eq_of_count hcount.symm hid.symm
  rw [h, hsame]

theorem SavedWell.shared {sha256 : Json → String} {savedAt : ℕ} {s : EngineState}
    {before between : List (EngineInputEvent × StreamId)}
    (h : SavedWell sha256 savedAt s before between) :
    SharedUnchanged (run s before).1 (run s (before ++ between)).1 := by
  obtain ⟨loaded, hloaded, moment, hmoment, hstate⟩ := h
  rw [load_save] at hloaded
  split_ifs at hloaded
  · cases hloaded
  · obtain rfl := Option.some.inj hloaded
    exact (reread_eq_iff _ _).mp (reread_of_moment hmoment hstate)

/-- A saved snapshot is good exactly if what it shares with the engine is the same
in both steps of the save, whatever the checksum. -/
theorem saved_snapshot (sha256 : Json → String) (savedAt : ℕ) (s : EngineState)
    (before between : List (EngineInputEvent × StreamId)) :
    SavedWell sha256 savedAt s before between ↔
      SharedUnchanged (run s before).1 (run s (before ++ between)).1 := by
  refine ⟨SavedWell.shared, fun h => ?_⟩
  unfold SavedWell
  rw [load_save, (reread_eq_iff _ _).mpr h, if_neg (not_not.mpr rfl)]
  exact ⟨_, rfl, before, List.prefix_append _ _, rfl⟩

/-- A new command between the two steps is enough to spoil the file. -/
theorem not_sharedUnchanged_command {s : EngineState} {e : EngineInputEvent} {c : String}
    (hc : e.commandId = some c) (hnew : ¬ alreadyApplied s e = true) (id : StreamId) :
    ¬ SharedUnchanged s (process s e id).1 := by
  intro h
  have hprocess : (process s e id).1.appliedCommandIds =
      recordedIds (dispatch s e).1.appliedCommandIds (some c) := by
    rw [process_fst, reduce_of_new hnew, hc]
  have hids := hprocess.symm.trans h.appliedCommandIds
  have hout : c ∉ s.appliedCommandIds := by
    simpa [alreadyApplied, hc] using hnew
  have hmem : c ∈ recordedIds (dispatch s e).1.appliedCommandIds (some c) := by
    have hpos : ([] : List String).length < MAX_APPLIED_COMMANDS := Nat.succ_pos _
    rw [recordedIds_some]
    exact @mem_latest String MAX_APPLIED_COMMANDS c _ [] hpos
  exact hout (hids ▸ hmem)

end SnapshotStore

namespace Fixture

def fundedUser : List (EngineInputEvent × StreamId) := [(user "u" 1000, ⟨1, 0⟩)]

def laterDeposit : List (EngineInputEvent × StreamId) :=
  [(evt "c" (.balanceDeposited ⟨"u", 500⟩), ⟨2, 0⟩)]

end Fixture

namespace SnapshotStore

open Fixture in
/-- The file would hold the balance after the deposit under the counters before it. -/
theorem torn_by_deposit :
    RunOf engineInputEventSchema (fundedUser ++ laterDeposit) ∧
      (run (createState MARKET) fundedUser).1.balances.get? "u" = some ⟨1000, 1000, 0⟩ ∧
      (run (createState MARKET) (fundedUser ++ laterDeposit)).1.balances.get? "u" =
        some ⟨1500, 1500, 0⟩ ∧
      ∀ sha256 savedAt, ¬ SavedWell sha256 savedAt (createState MARKET) fundedUser laterDeposit := by
  refine ⟨by decide +kernel, by decide +kernel, by decide +kernel, fun sha256 savedAt h => ?_⟩
  have hshared := h.shared
  rw [run_append] at hshared
  have hnew : ¬ alreadyApplied (run (createState MARKET) fundedUser).1
      (evt "c" (.balanceDeposited ⟨"u", 500⟩)) = true := by decide +kernel
  exact not_sharedUnchanged_command rfl hnew ⟨2, 0⟩ hshared

end SnapshotStore

end Perps
