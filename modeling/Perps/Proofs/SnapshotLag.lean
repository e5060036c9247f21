import Perps.Domain.Identifiers
import Perps.Runtime.Recovery
import Perps.Runtime.SnapshotTimer

/-! How far the snapshots are behind. The dirty counter starts anew when a save ends,
whatever has been applied since it was called. What it misses is therefore bounded by what
is applied in the course of one save, and everything else is counted. -/

namespace Perps

open Lib

namespace Engine

/-- An event is applied once, or not at all. -/
theorem process_appliedCount (s : EngineState) (e : EngineInputEvent) (id : StreamId) :
    (process s e id).1.appliedCount ≤ s.appliedCount + 1 := by
  rw [process_fst]
  by_cases ha : alreadyApplied s e = true
  · rw [reduce_of_applied ha]
    exact Nat.le_succ _
  · have hcount : (dispatch s e).1.appliedCount = s.appliedCount :=
      congrArg (fun b => b.2.2.1) (dispatch_bookkeeping s e).1
    rw [reduce_of_new ha]
    exact Nat.succ_le_succ hcount.le

end Engine

namespace SnapshotTimer

/-- Fewer than `k` events have been applied since any save in flight was called when another
event comes, and publishing succeeds. -/
def Timely (k : ℕ) (r : Runtime) : Action → Prop
  | .handle _ => ∀ state ∈ r.inFlight, r.engine.appliedCount < state.appliedCount + k
  | .publish ok => ok = true
  | _ => True

instance (k : ℕ) (r : Runtime) (a : Action) : Decidable (Timely k r a) :=
  match a with
  | .handle _ => inferInstanceAs (Decidable (∀ state ∈ r.inFlight, _))
  | .publish ok => inferInstanceAs (Decidable (ok = true))
  | .timer | .stop | .saved _ | .timerSaved _ _ => inferInstanceAs (Decidable True)

def Action.fails : Action → Bool
  | .saved ok | .timerSaved _ ok => !ok
  | _ => false

/-- `r` is at most `n` events ahead of a saved state, or of the one that it went live with. -/
def Behind (engine : EngineState) (r : Runtime) (n : ℕ) : Prop :=
  ∃ state ∈ engine :: r.saved, r.engine.appliedCount ≤ state.appliedCount + n

instance (engine : EngineState) (r : Runtime) (n : ℕ) : Decidable (Behind engine r n) :=
  inferInstanceAs (Decidable (∃ state ∈ engine :: r.saved, _))

structure Counted (k : ℕ) (engine : EngineState) (r : Runtime) : Prop where
  saves : ∀ state ∈ r.inFlight, r.engine.appliedCount ≤ state.appliedCount + k
  saved : Behind engine r (r.dirtySinceSnapshot + r.uncounted + k)

/-- The counter has not run past the events after which the handler saves. -/
structure Limited (snapshotEveryEvents : ℕ) (r : Runtime) : Prop where
  le : r.dirtySinceSnapshot + r.uncounted ≤ snapshotEveryEvents
  lt : r.handler = .idle → r.dirtySinceSnapshot < snapshotEveryEvents

section Step

variable {snapshotEveryEvents k : ℕ} {engine : EngineState} {r r' : Runtime}

theorem mem_inFlight {state : EngineState} :
    state ∈ r.inFlight ↔ r.handler = .saving state ∨ state ∈ r.saves := by
  unfold Runtime.inFlight
  cases r.handler with
  | idle => simp
  | publishing => simp
  | saving own => simp [eq_comm]

theorem uncounted_publishing (h : r.handler = .publishing) : r.uncounted = 1 := by
  unfold Runtime.uncounted
  rw [h]

/-- What the handler does with a message. -/
theorem handle_cases (r : Runtime) (msg : InputMessage) :
    r.handle msg = r ∨ ∃ next, next.appliedCount ≤ r.engine.appliedCount + 1 ∧
      r.handle msg = { r with engine := next, handler := .publishing } := by
  unfold Runtime.handle
  split_ifs
  · exact Or.inl rfl
  · cases decodeInputEvent msg.data with
    | none => exact Or.inl rfl
    | some event => exact Or.inr ⟨_, Engine.process_appliedCount _ _ _, rfl⟩

theorem Counted.start : Counted k engine (runLive engine) where
  saves _ hstate := absurd hstate List.not_mem_nil
  saved := ⟨engine, List.mem_cons_self, Nat.le_add_right _ _⟩

theorem Counted.handle (h : Counted k engine r) (hidle : r.handler = .idle)
    (htimely : ∀ state ∈ r.inFlight, r.engine.appliedCount < state.appliedCount + k)
    (msg : InputMessage) : Counted k engine (r.handle msg) := by
  rcases handle_cases r msg with heq | ⟨next, hnext, heq⟩
  · rwa [heq]
  · rw [heq]
    refine ⟨fun state hstate => ?_, ?_⟩
    · have hbefore := htimely state (mem_inFlight.mpr (Or.inr hstate))
      exact hnext.trans hbefore
    · obtain ⟨state, hstate, hle⟩ := h.saved
      refine ⟨state, hstate, ?_⟩
      have hzero : r.uncounted = 0 := by
        unfold Runtime.uncounted
        rw [hidle]
      have hone : Runtime.uncounted { r with engine := next, handler := .publishing } = 1 := rfl
      rw [hone]
      show next.appliedCount ≤ state.appliedCount + (r.dirtySinceSnapshot + 1 + k)
      omega

theorem Counted.published (h : Counted k engine r) (hpublishing : r.handler = .publishing) :
    Counted k engine (r.published snapshotEveryEvents) := by
  refine ⟨fun state hstate => ?_, ?_⟩
  · rcases mem_inFlight.mp hstate with hown | hstate
    · -- the handler's own save is called here, with the engine as it is
      unfold Runtime.published at hown
      split_ifs at hown
      obtain rfl := Handler.saving.inj hown
      exact Nat.le_add_right _ _
    · exact h.saves state (mem_inFlight.mpr (Or.inr hstate))
  · obtain ⟨state, hstate, hle⟩ := h.saved
    rw [uncounted_publishing hpublishing] at hle
    refine ⟨state, hstate, ?_⟩
    show r.engine.appliedCount ≤ state.appliedCount + (r.dirtySinceSnapshot + 1 + _ + k)
    omega

theorem Counted.saveSnapshot (h : Counted k engine r) : Counted k engine r.saveSnapshot := by
  refine ⟨fun state hstate => ?_, h.saved⟩
  rcases mem_inFlight.mp hstate with hown | hstate
  · exact h.saves state (mem_inFlight.mpr (Or.inl hown))
  · rcases List.mem_append.mp hstate with hstate | hstate
    · exact h.saves state (mem_inFlight.mpr (Or.inr hstate))
    · obtain rfl := List.mem_singleton.mp hstate
      exact Nat.le_add_right _ _

theorem ended_handler (state : EngineState) (ok : Bool) :
    (r.ended state ok).handler = r.handler := by
  cases ok <;> rfl

theorem ended_saves (state : EngineState) (ok : Bool) : (r.ended state ok).saves = r.saves := by
  cases ok <;> rfl

theorem Counted.ended (h : Counted k engine r) {state : EngineState} (hstate : state ∈ r.inFlight)
    (ok : Bool) : Counted k engine (r.ended state ok) := by
  cases ok with
  | true =>
    refine ⟨h.saves, state, List.mem_cons_of_mem _ (List.mem_append_right _ List.mem_cons_self), ?_⟩
    exact (h.saves state hstate).trans (Nat.add_le_add_left (Nat.le_add_left _ _) _)
  | false => exact h

/-- Saves that have ended are no longer in flight. -/
theorem Counted.shrink (h : Counted k engine r) (hengine : r'.engine = r.engine)
    (hdirty : r'.dirtySinceSnapshot = r.dirtySinceSnapshot) (hsaved : r'.saved = r.saved)
    (hinFlight : ∀ state ∈ r'.inFlight, state ∈ r.inFlight)
    (huncounted : r'.uncounted = r.uncounted) : Counted k engine r' := by
  refine ⟨fun state hstate => ?_, ?_⟩
  · rw [hengine]
    exact h.saves state (hinFlight state hstate)
  · unfold Behind
    rw [hengine, hdirty, hsaved, huncounted]
    exact h.saved

theorem counted_step {a : Action} (ha : Timely k r a) (h : step snapshotEveryEvents r a = some r')
    (hr : Counted k engine r) : Counted k engine r' := by
  cases step_cases h with
  | handle msg hidle => exact hr.handle hidle ha msg
  | published hpublishing => exact hr.published hpublishing
  | failed => cases ha
  | timer => exact hr.saveSnapshot
  | clean => exact hr
  | stop => exact hr.saveSnapshot
  | saved ok hsaving =>
    refine (hr.ended (mem_inFlight.mpr (Or.inl hsaving)) ok).shrink rfl rfl rfl
      (fun state hstate => ?_) ?_
    · rcases mem_inFlight.mp hstate with hown | hstate
      · cases hown
      · exact mem_inFlight.mpr (Or.inr hstate)
    · unfold Runtime.uncounted
      rw [ended_handler, hsaving]
  | timerSaved i ok hstate =>
    have hmem := mem_inFlight.mpr (Or.inr (List.mem_of_getElem? hstate))
    refine (hr.ended hmem ok).shrink rfl rfl rfl (fun state hstate => ?_) rfl
    rcases mem_inFlight.mp hstate with hown | hstate
    · exact mem_inFlight.mpr (Or.inl hown)
    · refine mem_inFlight.mpr (Or.inr ?_)
      rw [ended_saves]
      exact List.mem_of_mem_eraseIdx hstate

theorem Limited.start (hevery : 0 < snapshotEveryEvents) :
    Limited snapshotEveryEvents (runLive engine) :=
  ⟨Nat.zero_le _, fun _ => hevery⟩

theorem limited_step (hevery : 0 < snapshotEveryEvents) {a : Action} (ha : a.fails = false)
    (h : step snapshotEveryEvents r a = some r') (hr : Limited snapshotEveryEvents r) :
    Limited snapshotEveryEvents r' := by
  cases step_cases h with
  | handle msg hidle =>
    rcases handle_cases r msg with heq | ⟨next, -, heq⟩
    · rwa [heq]
    · rw [heq]
      exact ⟨hr.lt hidle, fun hnot => Handler.noConfusion hnot⟩
  | published hpublishing =>
    have hle := hr.le
    rw [uncounted_publishing hpublishing] at hle
    unfold Runtime.published
    by_cases hmore : r.dirtySinceSnapshot + 1 ≥ snapshotEveryEvents
    · rw [if_pos hmore]
      exact ⟨hle, fun hnot => Handler.noConfusion hnot⟩
    · rw [if_neg hmore]
      exact ⟨hle, fun _ => not_le.mp hmore⟩
  | failed hpublishing =>
    have hle := hr.le
    rw [uncounted_publishing hpublishing] at hle
    exact ⟨(Nat.le_succ _).trans hle, fun _ => hle⟩
  | timer => exact ⟨hr.le, hr.lt⟩
  | clean => exact hr
  | stop => exact ⟨hr.le, hr.lt⟩
  | saved ok hsaving =>
    cases ok with
    | true => exact ⟨Nat.zero_le _, fun _ => hevery⟩
    | false => cases ha
  | timerSaved i ok hstate =>
    cases ok with
    | true =>
      refine ⟨?_, fun _ => hevery⟩
      have hle := hr.le
      show 0 + r.uncounted ≤ snapshotEveryEvents
      omega
    | false => cases ha

end Step

/-- The engine is ahead of its snapshots by no more than the counted events and those of one
save; and if no save fails, by no more than the handler's limit and those of one save. -/
theorem snapshot_lag {snapshotEveryEvents k : ℕ} (hevery : 0 < snapshotEveryEvents)
    {engine : EngineState} {as : List Action} {r : Runtime}
    (hC : Along (step snapshotEveryEvents) (Timely k) (runLive engine) as)
    (hrun : runs (step snapshotEveryEvents) (runLive engine) as = some r) :
    Behind engine r (r.dirtySinceSnapshot + r.uncounted + k) ∧
      ((∀ a ∈ as, a.fails = false) → Behind engine r (snapshotEveryEvents + k)) := by
  have hcounted := (runs_invariant (fun _ _ _ => counted_step) Counted.start hC hrun).saved
  refine ⟨hcounted, fun hok => ?_⟩
  have hlimited := runs_invariant (C := fun _ a => a.fails = false)
    (fun _ _ _ => limited_step hevery) (Limited.start hevery)
    ((Along.mem (step snapshotEveryEvents) (runLive engine) as).mono fun _ a _ ha => hok a ha) hrun
  obtain ⟨state, hstate, hle⟩ := hcounted
  exact ⟨state, hstate, hle.trans (Nat.add_le_add_left (Nat.add_le_add_right hlimited.le k) _)⟩

end SnapshotTimer

namespace Fixture

/-- A deposit is applied in the course of a save of the timer. -/
def overlappedRun : List SnapshotTimer.Action :=
  [.handle { newUser with deliveries := 1 }, .publish true, .timer,
    .handle { deposit with deliveries := 1 }, .publish true, .timerSaved 0 true, .timer]

end Fixture

namespace SnapshotTimer

open Fixture in
/-- The counter is at zero, so that the timer rests, and the deposit is in no snapshot. -/
theorem snapshot_lag_overlap :
    ∃ r, runs (step 500) (runLive (createState MARKET)) overlappedRun = some r ∧
      r.dirtySinceSnapshot = 0 ∧ r.inFlight = [] ∧ ¬ Behind (createState MARKET) r 0 ∧
      Behind (createState MARKET) r 1 := by
  have hfacts : ∃ r ∈ runs (step 500) (runLive (createState MARKET)) overlappedRun,
      r.dirtySinceSnapshot = 0 ∧ r.uncounted = 0 ∧ r.inFlight.length = 0 ∧
      ¬ Behind (createState MARKET) r 0 := by
    decide +kernel
  obtain ⟨r, hr, hdirty, huncounted, hnone, hbehind⟩ := hfacts
  have hlag := (snapshot_lag (k := 1) (by decide) (by decide +kernel) hr).1
  rw [hdirty, huncounted] at hlag
  exact ⟨r, hr, hdirty, List.eq_nil_of_length_eq_zero hnone, hbehind, hlag⟩

end SnapshotTimer

end Perps
