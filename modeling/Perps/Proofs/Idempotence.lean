import Perps.Domain.MapOrder
import Perps.Domain.Identifiers

/-! Commands are applied once: the ids on record are the latest ones applied, and
as long as an id is on record every further delivery of its command is skipped
without a trace but the stream id. -/

namespace Perps

open Lib

namespace Engine

/-! The record of applied commands -/

/-- The last `n` elements. -/
def latest {α : Type} (n : ℕ) (xs : List α) : List α := xs.drop (xs.length - n)

/-- The command ids of the events that are applied, in order of application. -/
def appliedCommands (s : EngineState) : List (EngineInputEvent × StreamId) → List String
  | [] => []
  | (e, id) :: rest =>
    (if alreadyApplied s e then [] else e.commandId.toList) ++
      appliedCommands (process s e id).1 rest

section Latest

variable {α : Type} (n : ℕ) (xs ys : List α)

theorem latest_length : (latest n xs).length ≤ n := by
  rw [latest, List.length_drop]
  omega

/-- Older elements do not matter to the latest of a longer list. -/
theorem latest_append : latest n (latest n xs ++ ys) = latest n (xs ++ ys) := by
  have hle : xs.length - n ≤ xs.length := Nat.sub_le _ _
  have hdrop : latest n xs ++ ys = (xs ++ ys).drop (xs.length - n) :=
    (List.drop_append_of_le_length hle).symm
  rw [hdrop, latest, latest, List.drop_drop, List.length_drop, List.length_append]
  congr 1
  omega

theorem mem_latest {c : α} {pre post : List α} (hpost : post.length < n) :
    c ∈ latest n (pre ++ c :: post) := by
  have hsplit : pre ++ c :: post = (pre ++ [c]) ++ post := by simp
  have hle : (pre ++ c :: post).length - n ≤ pre.length := by
    rw [List.length_append, List.length_cons]
    omega
  rw [latest, List.drop_append_of_le_length hle]
  exact List.mem_append_right _ List.mem_cons_self

end Latest

theorem recordedIds_some (ids : List String) (c : String) :
    recordedIds ids (some c) = latest MAX_APPLIED_COMMANDS (ids ++ [c]) := rfl

/-- No handler touches the record. -/
theorem dispatch_commandIds (s : EngineState) (e : EngineInputEvent) :
    (dispatch s e).1.appliedCommandIds = s.appliedCommandIds :=
  congrArg (fun b => b.2.1) (dispatch_bookkeeping s e).1

/-- The record holds the latest ids of the history `h`, each once. -/
structure Recorded (h : List String) (s : EngineState) : Prop where
  ids : s.appliedCommandIds = latest MAX_APPLIED_COMMANDS h
  nodup : s.appliedCommandIds.Nodup

theorem recorded_process {h : List String} {s : EngineState} (hrec : Recorded h s)
    (e : EngineInputEvent) (id : StreamId) :
    Recorded (h ++ if alreadyApplied s e then [] else e.commandId.toList) (process s e id).1 := by
  by_cases ha : alreadyApplied s e = true
  · rw [process_applied ha, if_pos ha, List.append_nil]
    exact ⟨hrec.ids, hrec.nodup⟩
  · rw [if_neg ha, process_fst, reduce_of_new ha]
    have hids : recordedIds (dispatch s e).1.appliedCommandIds e.commandId =
        latest MAX_APPLIED_COMMANDS (h ++ e.commandId.toList) ∧
          (recordedIds (dispatch s e).1.appliedCommandIds e.commandId).Nodup := by
      rw [dispatch_commandIds]
      cases hc : e.commandId with
      | none =>
        rw [Option.toList_none, List.append_nil]
        exact ⟨hrec.ids, hrec.nodup⟩
      | some c =>
        have hnew : c ∉ s.appliedCommandIds := by
          simpa [alreadyApplied, hc] using ha
        rw [recordedIds_some, Option.toList_some]
        refine ⟨by rw [hrec.ids, latest_append], ?_⟩
        refine List.Nodup.sublist (List.drop_sublist _ _) ?_
        exact List.nodup_append.mpr ⟨hrec.nodup, List.nodup_singleton c, fun a ha b hb => by
          rw [List.mem_singleton.mp hb]
          exact fun hac => hnew (hac ▸ ha)⟩
    exact ⟨hids.1, hids.2⟩

theorem recorded_run {h : List String} {s : EngineState} (hrec : Recorded h s)
    (evs : List (EngineInputEvent × StreamId)) :
    Recorded (h ++ appliedCommands s evs) (run s evs).1 := by
  induction evs generalizing h s with
  | nil =>
    rw [appliedCommands, List.append_nil]
    exact hrec
  | cons x xs ih =>
    rw [appliedCommands, ← List.append_assoc]
    exact ih (recorded_process hrec x.1 x.2)

/-! Further deliveries -/

/-- The id was applied, and fewer than the window's length of others since. -/
def Recent (h : List String) (c : String) : Prop :=
  ∃ pre post, h = pre ++ c :: post ∧ post.length < MAX_APPLIED_COMMANDS

/-- The second sequence is the first, which follows `done`, with further
deliveries of recent commands in between: any event with such a command id,
under any stream id. -/
inductive Redelivered (market : MarketConfig) : List (EngineInputEvent × StreamId) →
    List (EngineInputEvent × StreamId) → List (EngineInputEvent × StreamId) → Prop
  | nil (done : List (EngineInputEvent × StreamId)) : Redelivered market done [] []
  | keep {done xs ys : List (EngineInputEvent × StreamId)} (x : EngineInputEvent × StreamId)
    (h : Redelivered market (done ++ [x]) xs ys) : Redelivered market done (x :: xs) (x :: ys)
  | again {done xs ys : List (EngineInputEvent × StreamId)} (x : EngineInputEvent × StreamId)
    (c : String) (hx : x.1.commandId = some c)
    (hc : Recent (appliedCommands (createState market) done) c)
    (h : Redelivered market done xs ys) : Redelivered market done xs (x :: ys)

theorem Recorded.mem {h : List String} {s : EngineState} (hrec : Recorded h s) {c : String}
    (hc : Recent h c) : c ∈ s.appliedCommandIds := by
  obtain ⟨pre, post, rfl, hpost⟩ := hc
  rw [hrec.ids]
  exact mem_latest _ hpost

theorem alike_eq {s t : EngineState} (h : Alike 0 Eq s t) :
    t = { s with lastInputId := t.lastInputId } := by
  have hb : t.balances = s.balances :=
    OrdMap.eq_of_keys h.balances (h.balanceKeys trivial)
  have hp : t.positions = s.positions := OrdMap.eq_of_keys h.positions h.positionKeys.symm
  have hrest := h.rest
  rw [hb, hp] at hrest
  exact hrest

/-- States that are the same but for the last input id liquidate in one order. -/
theorem liquidatedBy_eq {d : ℕ} {s t : EngineState} (h : Alike d Eq s t) (e : EngineInputEvent) :
    liquidatedBy t e = liquidatedBy s e := by
  have hp : t.positions = s.positions := OrdMap.eq_of_keys h.positions h.positionKeys.symm
  have hseq : t.lastObserverSeq = s.lastObserverSeq := by rw [h.rest]
  unfold liquidatedBy doomed
  rw [hseq, hp]

/-- The run with the further deliveries stays next to the run without them. -/
theorem redelivered_run {market : MarketConfig}
    {done xs ys : List (EngineInputEvent × StreamId)} (h : Redelivered market done xs ys)
    {t : EngineState} (ht : Alike 0 Eq (run (createState market) done).1 t) :
    Alike 0 Eq (run (run (createState market) done).1 xs).1 (run t ys).1 ∧
      (run t ys).2 = (run (run (createState market) done).1 xs).2 := by
  induction h generalizing t with
  | nil done => exact ⟨ht, rfl⟩
  | @keep done xs ys x h ih =>
    have hkeys := keysOK_steps (keysOK_createState market) done
    have hstep := process_alike ht hkeys x.1 x.2
    have houts := process_outputs ht hkeys (liquidatedBy_eq ht x.1) x.2
    rw [run_snoc] at ih
    obtain ⟨hstate, hrest⟩ := ih hstep
    rw [run_cons, run_cons, houts, hrest]
    exact ⟨hstate, rfl⟩
  | @again done xs ys x c hx hc h ih =>
    have hrec := recorded_run (h := []) (s := createState market) ⟨rfl, List.nodup_nil⟩ done
    have hids : t.appliedCommandIds = (run (createState market) done).1.appliedCommandIds := by
      rw [ht.rest]
    have happlied : alreadyApplied t x.1 = true := by
      unfold alreadyApplied
      rw [hx, hids]
      exact decide_eq_true (hrec.mem hc)
    have hskip : Alike 0 Eq (run (createState market) done).1 { t with lastInputId := x.2 } :=
      ⟨by rw [ht.rest], ht.balances, ht.positions, ht.positionKeys, ht.balanceKeys⟩
    obtain ⟨hstate, hrest⟩ := ih hskip
    have hrun : run t (x :: ys) = run { t with lastInputId := x.2 } ys := by
      rw [run_cons, process_applied happlied]
      rfl
    rw [hrun]
    exact ⟨hstate, hrest⟩

/-- The ids on record are the latest ones applied, and further deliveries within
the window change neither the outputs nor the state, but for the last input id. -/
theorem bounded_idempotence (market : MarketConfig) :
    (∀ evs, (run (createState market) evs).1.appliedCommandIds.Nodup ∧
      (run (createState market) evs).1.appliedCommandIds.length ≤ MAX_APPLIED_COMMANDS ∧
      (run (createState market) evs).1.appliedCommandIds =
        latest MAX_APPLIED_COMMANDS (appliedCommands (createState market) evs)) ∧
    ∀ xs ys, Redelivered market [] xs ys →
      (run (createState market) ys).2 = (run (createState market) xs).2 ∧
      (run (createState market) ys).1 = { (run (createState market) xs).1 with
        lastInputId := (run (createState market) ys).1.lastInputId } := by
  refine ⟨fun evs => ?_, fun xs ys h => ?_⟩
  · have hrec := recorded_run (h := []) (s := createState market) ⟨rfl, List.nodup_nil⟩ evs
    rw [List.nil_append] at hrec
    refine ⟨hrec.nodup, ?_, hrec.ids⟩
    rw [hrec.ids]
    exact latest_length _ _
  · have hself : Alike 0 Eq (createState market) (createState market) :=
      ⟨rfl, fun _ => rfl, fun _ => rfl, rfl, fun _ => rfl⟩
    obtain ⟨hstate, houts⟩ := redelivered_run h hself
    exact ⟨houts, alike_eq hstate⟩

open Fixture in
/-- A rejected order, an accepted one, and after both of them each command again,
the rejected one under another payload. -/
theorem bounded_idempotence_twice :
    (run (createState MARKET) [(user "a" 1000, ⟨1, 0⟩),
        (place "a" "o1" .Bid .LIMIT 100 10 1 5000, ⟨2, 0⟩),
        (place "a" "o2" .Bid .LIMIT 100 1 1 100, ⟨3, 0⟩),
        (place "a" "o2" .Bid .LIMIT 100 1 1 100, ⟨4, 0⟩),
        (evt "cmd_o1" (.balanceDeposited ⟨"a", 7⟩), ⟨5, 0⟩)]).2 =
      (run (createState MARKET) [(user "a" 1000, ⟨1, 0⟩),
        (place "a" "o1" .Bid .LIMIT 100 10 1 5000, ⟨2, 0⟩),
        (place "a" "o2" .Bid .LIMIT 100 1 1 100, ⟨3, 0⟩)]).2 :=
  ((bounded_idempotence MARKET).2 _ _
    (.keep _ (.keep _ (.keep _
      (.again _ "cmd_o2" rfl ⟨["cmd_o1"], [], by decide +kernel, by decide +kernel⟩
        (.again _ "cmd_o1" rfl ⟨[], ["cmd_o2"], by decide +kernel, by decide +kernel⟩
          (.nil _))))))).1

end Engine

end Perps
