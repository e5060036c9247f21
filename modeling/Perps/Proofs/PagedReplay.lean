import Perps.Runtime.EngineRuntime
import Perps.Streams.Replay

/-! A replay that reads the input log page by page misses no entry and repeats none,
and folds what a single read of the log would have given. -/

namespace Perps

open Lib

variable {α : Type} {logs : ℕ → Log α} {pageSize : ℕ}

/-- The entries come after the id without a gap, in strictly increasing order, from the first
one on. -/
structure RunAfter (log : Log α) (afterId : StreamId) (xs : List (Entry α)) : Prop where
  contiguous : ∃ rest, log.entries = log.through afterId ++ xs ++ rest
  increasing : xs.Pairwise fun x y => x.id < y.id
  distinct : xs.Nodup

theorem runAfter_of_prefix {log : Log α} {afterId : StreamId} {xs : List (Entry α)}
    (h : xs <+: log.after afterId) : RunAfter log afterId xs := by
  have hsorted : (log.after afterId).Pairwise fun x y => x.id < y.id :=
    log.sorted.sublist List.filter_sublist
  have hincreasing := hsorted.sublist h.sublist
  refine ⟨?_, hincreasing, hincreasing.imp fun hlt heq => ?_⟩
  · obtain ⟨rest, hrest⟩ := h
    refine ⟨rest, ?_⟩
    rw [List.append_assoc, hrest, log.through_append_after]
  · rw [heq] at hlt
    exact lt_irrefl _ hlt

/-- Paged replay has no gap and no repeat, and it returns once the appends have stopped. -/
theorem readRange_run (hlogs : AppendedTo logs) (afterId : StreamId) (hsize : 1 ≤ pageSize) :
    (∀ rounds, RunAfter (logs rounds) afterId (readRange logs afterId pageSize rounds).1) ∧
      (∀ rounds, (readRange logs afterId pageSize rounds).2 = true →
        (logs 0).after afterId <+: (readRange logs afterId pageSize rounds).1 ∧
          ∀ more, readRange logs afterId pageSize (rounds + more) =
            readRange logs afterId pageSize rounds) ∧
      ((∃ n, ∀ m ≥ n, (logs m).entries = (logs n).entries) →
        ∃ rounds, (readRange logs afterId pageSize rounds).2 = true) := by
  have hrange (log : Log α) := RangeStart.range_startAfter afterId log
  refine ⟨fun rounds => ?_, fun rounds hdone => ⟨?_, fun more => ?_⟩, ?_⟩
  · have h := readPages_prefix hlogs pageSize rounds 0 (startAfter afterId)
    rw [hrange, Nat.zero_add] at h
    exact runAfter_of_prefix h
  · have h := readPages_complete hlogs hsize hdone
    rwa [hrange] at h
  · exact readPages_returned hdone more
  · rintro ⟨n, hn⟩
    refine ⟨((logs n).after afterId).length + 1, readPages_returns hlogs hsize fun m _ => ?_⟩
    have hlast : (logs m).entries <+: (logs n).entries := by
      rcases le_total m n with hmn | hnm
      · exact hlogs.le hmn
      · rw [hn m hnm]
    rw [hrange]
    exact (hlast.filter _).length_le

/-- Pages of one entry, and an entry that is appended behind a full page. -/
theorem readRange_run_appended :
    let a : Entry String := ⟨⟨1, 0⟩, "a"⟩
    let b : Entry String := ⟨⟨2, 0⟩, "b"⟩
    let c : Entry String := ⟨⟨3, 0⟩, "c"⟩
    let logs (n : ℕ) : Log String := if n = 0 then ⟨[a, b], by decide +kernel, by decide +kernel⟩
      else ⟨[a, b, c], by decide +kernel, by decide +kernel⟩
    readRange logs ⟨1, 0⟩ 1 3 = ([b, c], true) ∧ RunAfter (logs 3) ⟨1, 0⟩ [b, c] := by
  intro a b c logs
  have hlogs : AppendedTo logs := by
    intro n
    cases n with
    | zero => exact ⟨[c], rfl⟩
    | succ n => exact List.prefix_refl _
  have hread : readRange logs ⟨1, 0⟩ 1 3 = ([b, c], true) := by decide +kernel
  have hrun := (readRange_run hlogs ⟨1, 0⟩ le_rfl).1 3
  rw [hread] at hrun
  exact ⟨hread, hrun⟩

/-- A stream at rest is read whole. -/
theorem readRange_still (log : Log α) (afterId : StreamId) (hsize : 1 ≤ pageSize) :
    readRange (fun _ => log) afterId pageSize ((log.after afterId).length + 1) =
      (log.after afterId, true) := by
  have hlogs : AppendedTo fun _ : ℕ => log := fun _ => List.prefix_refl _
  have hrange := RangeStart.range_startAfter afterId log
  have hbound : ∀ m ≥ 0, ((startAfter afterId).range log).length ≤ (log.after afterId).length :=
    fun _ _ => by rw [hrange]
  have hdone := readPages_returns hlogs hsize hbound
  have hread := readPages_prefix hlogs pageSize ((log.after afterId).length + 1) 0
    (startAfter afterId)
  have hcomplete := readPages_complete hlogs hsize hdone
  rw [hrange] at hread hcomplete
  exact Prod.ext (hread.sublist.antisymm hcomplete.sublist) hdone

namespace EngineRuntime

/-- Recovery replays what paged reads yield, if nobody writes to the log meanwhile. -/
theorem recover_paged (cfg : Config) (log : InputLog) (found : List (String × Json))
    (hsize : 1 ≤ pageSize) : recover cfg log found = (loadEngine cfg found).map fun state =>
      let engine := replay state (readRange (fun _ => log) state.lastInputId pageSize
        ((log.after state.lastInputId).length + 1)).1
      { engine := engine, replayedThrough := engine.lastInputId, batch := [], work := .idle } := by
  unfold recover
  cases loadEngine cfg found with
  | none => rfl
  | some state =>
    rw [Option.map_some]
    dsimp only
    rw [readRange_still log state.lastInputId hsize]
    rfl

end EngineRuntime

end Perps
