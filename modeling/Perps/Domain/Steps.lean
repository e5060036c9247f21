import Perps.Domain.Matching
import Perps.Lib.Runs

/-! What processing one event does to the state: the handlers' effects up to the
counters that `process` keeps, the runs of the engine, and the rules that carry
a property from one event to a whole run. -/

namespace Perps

open Lib

namespace Engine

/-! Stamping -/

theorem stampAll_fst (src : EnvelopeMeta) (state : EngineState) (ds : List DraftOutput) :
    (stampAll src state ds).1 = { state with seq := state.seq + ds.length } := by
  induction ds generalizing state with
  | nil => rfl
  | cons d ds ih =>
    simp only [stampAll, ih, List.length_cons]
    simp only [stamp, nextSeq, Nat.add_assoc, Nat.add_comm 1]

theorem stampAll_payloads (src : EnvelopeMeta) (state : EngineState) (ds : List DraftOutput) :
    (stampAll src state ds).2.map EngineOutputEvent.payload = ds := by
  induction ds generalizing state with
  | nil => rfl
  | cons d ds ih => simp only [stampAll, stamp, nextSeq, List.map_cons, ih]

/-- What every stamp has, every output has. -/
theorem stampAll_forall {src : EnvelopeMeta} {P : EngineOutputEvent → Prop}
    (h : ∀ state d, P (stamp src state d).2) (state : EngineState) (ds : List DraftOutput) :
    ∀ out ∈ (stampAll src state ds).2, P out := by
  induction ds generalizing state with
  | nil => simp [stampAll]
  | cons d ds ih =>
    intro out hout
    rcases List.mem_cons.mp hout with rfl | hout
    · exact h state d
    · exact ih _ out hout

/-- The outputs of a valid event are valid. -/
theorem stampAll_valid {src : EnvelopeMeta} (h : src.Valid) (state : EngineState)
    (ds : List DraftOutput) : ∀ out ∈ (stampAll src state ds).2,
      out.toEnvelopeMeta.Valid ∧ out.schemaVersion = SCHEMA_VERSION :=
  stampAll_forall (fun _ _ =>
    ⟨⟨by simp [stamp], by simp [stamp], by simp [stamp, SCHEMA_VERSION], h.2.2.2.1, h.1, h.2.2.2.2.2⟩,
      rfl⟩) state ds

/-- The stamps depend on nothing but the sequence number. -/
theorem stampAll_snd_congr (src : EnvelopeMeta) {s t : EngineState} (ds : List DraftOutput)
    (h : t.seq = s.seq) : (stampAll src t ds).2 = (stampAll src s ds).2 := by
  induction ds generalizing s t with
  | nil => rfl
  | cons d ds ih =>
    have hout : (stamp src t d).2 = (stamp src s d).2 := by
      simp only [stamp, nextSeq, h]
    have hseq : (stamp src t d).1.seq = (stamp src s d).1.seq := congrArg (· + 1) h
    show (stamp src t d).2 :: (stampAll src (stamp src t d).1 ds).2 =
      (stamp src s d).2 :: (stampAll src (stamp src s d).1 ds).2
    rw [hout, ih hseq]

theorem process_payloads (state : EngineState) (e : EngineInputEvent) (id : StreamId) :
    (process state e id).2.map EngineOutputEvent.payload = (reduce state e).2 :=
  stampAll_payloads _ _ _

theorem process_valid {e : EngineInputEvent} (h : engineInputEventSchema e) (state : EngineState)
    (id : StreamId) : ∀ out ∈ (process state e id).2,
      out.toEnvelopeMeta.Valid ∧ out.schemaVersion = SCHEMA_VERSION :=
  stampAll_valid h.1 _ _

theorem process_correlationId (state : EngineState) (e : EngineInputEvent) (id : StreamId) :
    ∀ out ∈ (process state e id).2, out.correlationId = e.correlationId :=
  stampAll_forall (fun _ _ => rfl) _ _

theorem process_ts (state : EngineState) (e : EngineInputEvent) (id : StreamId) :
    ∀ out ∈ (process state e id).2, out.ts = e.ts :=
  stampAll_forall (fun _ _ => rfl) _ _

theorem process_fst (state : EngineState) (e : EngineInputEvent) (id : StreamId) :
    (process state e id).1 = { (reduce state e).1 with
      lastInputId := id, seq := (reduce state e).1.seq + (reduce state e).2.length } := by
  simp only [process, stampAll_fst]

theorem reduce_of_applied {state : EngineState} {e : EngineInputEvent}
    (h : alreadyApplied state e = true) : reduce state e = (state, []) := by
  rw [reduce, if_pos h]

/-- The command ids on record after a command. -/
def recordedIds (ids : List String) : Option String → List String
  | some c => (ids ++ [c]).drop ((ids ++ [c]).length - MAX_APPLIED_COMMANDS)
  | none => ids

theorem recordCommand_eq (state : EngineState) (c : Option String) :
    recordCommand state c =
      { state with appliedCommandIds := recordedIds state.appliedCommandIds c } := by
  cases c <;> simp only [recordCommand, recordedIds]

theorem reduce_of_new {state : EngineState} {e : EngineInputEvent}
    (h : ¬ alreadyApplied state e = true) :
    reduce state e = ({ (dispatch state e).1 with
      appliedCommandIds := recordedIds (dispatch state e).1.appliedCommandIds e.commandId
      appliedCount := (dispatch state e).1.appliedCount + 1 }, (dispatch state e).2) := by
  rw [reduce, if_neg h]
  simp only [recordCommand_eq]

/-! The part of the state that the handlers work on -/

/-- `t` is `s` with the bookkeeping of `process` moved on. -/
structure SameCore (s t : EngineState) : Prop where
  market : t.market = s.market
  markPrice : t.markPrice = s.markPrice
  lastTradePrice : t.lastTradePrice = s.lastTradePrice
  balances : t.balances = s.balances
  positions : t.positions = s.positions
  bids : t.bids = s.bids
  asks : t.asks = s.asks
  lastObserverSeq : t.lastObserverSeq = s.lastObserverSeq
  seq : s.seq ≤ t.seq

theorem SameCore.bal {s t : EngineState} (h : SameCore s t) (u : String) : t.bal u = s.bal u := by
  unfold EngineState.bal
  rw [h.balances]

theorem SameCore.pos {s t : EngineState} (h : SameCore s t) (u : String) : t.pos u = s.pos u := by
  unfold EngineState.pos
  rw [h.positions, h.markPrice]

/-- An event that is new takes the state through its handler. -/
theorem process_new {state : EngineState} {e : EngineInputEvent}
    (h : ¬ alreadyApplied state e = true) (id : StreamId) :
    SameCore (dispatch state e).1 (process state e id).1 := by
  rw [process_fst, reduce_of_new h]
  exact ⟨rfl, rfl, rfl, rfl, rfl, rfl, rfl, rfl, Nat.le_add_right _ _⟩

/-- An event whose command was applied before leaves the state as it is. -/
theorem process_applied {state : EngineState} {e : EngineInputEvent}
    (h : alreadyApplied state e = true) (id : StreamId) :
    process state e id = ({ state with lastInputId := id }, []) := by
  simp only [process, reduce_of_applied h, stampAll]

theorem sameCore_lastInputId (state : EngineState) (id : StreamId) :
    SameCore state { state with lastInputId := id } :=
  ⟨rfl, rfl, rfl, rfl, rfl, rfl, rfl, rfl, le_rfl⟩

/-! Runs -/

/-- The events of a run all satisfy `P`. -/
def RunOf (P : EngineInputEvent → Prop) (evs : List (EngineInputEvent × StreamId)) : Prop :=
  ∀ x ∈ evs, P x.1

instance (P : EngineInputEvent → Prop) [DecidablePred P]
    (evs : List (EngineInputEvent × StreamId)) : Decidable (RunOf P evs) :=
  inferInstanceAs (Decidable (∀ x ∈ evs, P x.1))

instance (p : InputPayload) (P : PlaceOrder → Prop) [DecidablePred P] :
    Decidable (∀ o, p = .orderPlace o → P o) :=
  match p with
  | .orderPlace o => decidable_of_iff (P o) (by simp)
  | .userCreated _ | .balanceDeposited _ | .orderCancel _ | .indexPriceUpdated _ => .isTrue nofun

/-- A valid event whose quantity, if it places an order, is a multiple of `10 ^ (-8)`. -/
def QuantityOnGrid (e : EngineInputEvent) : Prop :=
  engineInputEventSchema e ∧ ∀ o, e.payload = .orderPlace o → Grid o.quantity

instance : DecidablePred QuantityOnGrid := fun _ => inferInstanceAs (Decidable (_ ∧ _))

theorem run_cons (state : EngineState) (x : EngineInputEvent × StreamId)
    (xs : List (EngineInputEvent × StreamId)) :
    run state (x :: xs) = ((run (process state x.1 x.2).1 xs).1,
      (process state x.1 x.2).2 ++ (run (process state x.1 x.2).1 xs).2) := rfl

theorem run_append (state : EngineState) (xs ys : List (EngineInputEvent × StreamId)) :
    run state (xs ++ ys) =
      ((run (run state xs).1 ys).1, (run state xs).2 ++ (run (run state xs).1 ys).2) := by
  induction xs generalizing state with
  | nil => rfl
  | cons x xs ih => simp only [List.cons_append, run, ih, List.append_assoc]

theorem run_snoc (state : EngineState) (xs : List (EngineInputEvent × StreamId))
    (x : EngineInputEvent × StreamId) :
    run state (xs ++ [x]) =
      ((process (run state xs).1 x.1 x.2).1,
        (run state xs).2 ++ (process (run state xs).1 x.1 x.2).2) := by
  rw [run_append]
  simp [run]

/-- One step of the engine, for `Along`. -/
def advance (s : EngineState) (x : EngineInputEvent × StreamId) : Option EngineState :=
  some (process s x.1 x.2).1

theorem along_cons (C : EngineState → EngineInputEvent × StreamId → Prop) (s : EngineState)
    (x : EngineInputEvent × StreamId) (xs : List (EngineInputEvent × StreamId)) :
    Along advance C s (x :: xs) ↔ C s x ∧ Along advance C (process s x.1 x.2).1 xs := by
  simp only [Along, advance, Option.mem_some_iff, forall_eq']

/-! Account drafts -/

/-- `t` differs from `s` at most in records that stand for the defaults of `s`. -/
structure SameAccounts (s t : EngineState) : Prop where
  core : t = { s with balances := t.balances, positions := t.positions }
  bal : ∀ u, t.bal u = s.bal u
  pos : ∀ u, t.pos u = s.pos u

theorem SameAccounts.refl (s : EngineState) : SameAccounts s s := ⟨rfl, fun _ => rfl, fun _ => rfl⟩

theorem SameAccounts.trans {s t u : EngineState} (h : SameAccounts s t) (h' : SameAccounts t u) :
    SameAccounts s u :=
  ⟨by rw [h'.core, h.core], fun v => (h'.bal v).trans (h.bal v),
    fun v => (h'.pos v).trans (h.pos v)⟩

theorem ensureBalance_same (s : EngineState) (u : String) : SameAccounts s (ensureBalance s u).1 := by
  unfold ensureBalance
  cases h : s.balances.get? u with
  | some b => exact .refl s
  | none =>
    refine ⟨rfl, fun v => ?_, fun _ => rfl⟩
    rw [bal_set]
    split_ifs with hv
    · rw [hv, EngineState.bal, h]
      rfl
    · rfl

theorem ensurePosition_same (s : EngineState) (u : String) :
    SameAccounts s (ensurePosition s u).1 := by
  unfold ensurePosition
  cases h : s.positions.get? u with
  | some b => exact .refl s
  | none =>
    refine ⟨rfl, fun _ => rfl, fun v => ?_⟩
    rw [pos_set]
    split_ifs with hv
    · rw [hv, EngineState.pos, h]
      rfl
    · rfl

theorem balanceDraft_same (s : EngineState) (u : String) : SameAccounts s (balanceDraft s u).1 :=
  ensureBalance_same s u

theorem positionDraft_same (s : EngineState) (u : String) : SameAccounts s (positionDraft s u).1 := by
  unfold positionDraft
  cases getPosition s u with
  | some p => exact .refl s
  | none => exact ensurePosition_same s u

theorem accountDrafts_same (users : List String) (acc : EngineState × List DraftOutput) :
    SameAccounts acc.1 (users.foldl accountDrafts acc).1 := by
  induction users generalizing acc with
  | nil => exact .refl _
  | cons u us ih =>
    exact ((balanceDraft_same acc.1 u).trans (positionDraft_same _ u)).trans
      (ih (accountDrafts acc u))

theorem liquidationDrafts_same (liqs : List PositionLiquidated)
    (acc : EngineState × List DraftOutput) :
    SameAccounts acc.1 (liqs.foldl liquidationDrafts acc).1 := by
  induction liqs generalizing acc with
  | nil => exact .refl _
  | cons l ls ih =>
    exact ((balanceDraft_same acc.1 l.userId).trans (positionDraft_same _ l.userId)).trans
      (ih (liquidationDrafts acc l))

end Engine

end Perps
