import Perps.Proofs.AccountEvents
import Perps.Proofs.Retries
import Perps.Proofs.StraightRun

/-! From the input stream to the tables, when nothing fails. The outputs of every
event are published once and in order, the engine never gets stuck before the end of
its input, and there the projected accounts are the engine's. -/

namespace Perps

open Lib Engine

/-! What the account events leave in the tables -/

namespace DbWriter

/-- The columns of a position row that an event keeps up to date. -/
structure SettledColumns where
  size : ℤ
  entryPrice : ℤ
  margin : ℤ
  leverage : ℤ
  liquidationPrice : ℤ
  realizedPnl : ℤ

def PositionRow.settledColumns (row : PositionRow) : SettledColumns :=
  ⟨row.size, row.entryPrice, row.margin, row.leverage, row.liquidationPrice, row.realizedPnl⟩

def columnsOf (p : SettledPart) : SettledColumns :=
  ⟨r p.size, r p.entryPrice, r p.margin, r p.leverage, r p.liqPrice, r p.realizedPnl⟩

def WalletRow.withBalance (row : WalletRow) (b : Balance) : WalletRow :=
  { row with balance := r b.total, freeBalance := r b.free, lockedBalance := r b.locked }

/-- The accounts of `s`, written over the rows of the users who have a wallet. -/
structure Mirrors (s : EngineState) (db db' : Db) : Prop where
  wallets : ∀ u, db'.wallets.get? u =
    (db.wallets.get? u).map fun row => ((s.balances.get? u).map row.withBalance).getD row
  positions : ∀ u, (db'.positions.get? u).map PositionRow.settledColumns =
    (if db.wallets.has u then
        (s.positions.get? u).map fun p => columnsOf p.settledPart else none).or
      ((db.positions.get? u).map PositionRow.settledColumns)

theorem walletWrites (es : List EngineOutputEvent) (u : String) :
    newest u (es.filterMap walletWrite) =
      ((followBalances es).get? u).map fun b => (r b.total, r b.free, r b.locked) := by
  refine newest_eq_applyFeed ?_ u
  rw [List.filterMap_map, List.map_filterMap, List.map_filterMap]
  refine List.filterMap_congr fun e _ => ?_
  unfold walletWrite balanceEntry
  dsimp only [Function.comp_apply]
  cases e.payload <;> rfl

theorem positionWrites (es : List EngineOutputEvent) (u : String) :
    newest u (es.filterMap positionWrite) = ((followPositions es).get? u).map positionRow := by
  refine newest_eq_applyFeed ?_ u
  rw [List.filterMap_map, List.map_filterMap, List.map_filterMap]
  refine List.filterMap_congr fun e _ => ?_
  unfold positionWrite positionEntry
  dsimp only [Function.comp_apply]
  cases e.payload <;> rfl

/-- The tables after account events that are complete for `s`. -/
theorem mirrors_of_follows {s : EngineState} {db db' : Db} {es : List EngineOutputEvent}
    (h : Follows (followBalances es) (followPositions es) s) (hafter : TablesAfter db es db') :
    Mirrors s db db' where
  wallets u := by
    rw [hafter.wallets]
    refine congrArg (Option.map · _) (funext fun row => ?_)
    unfold walletAfter
    rw [walletWrites, h.balances]
    cases s.balances.get? u <;> rfl
  positions u := by
    have hcolumns : (newest u (es.filterMap positionWrite)).map PositionRow.settledColumns =
        (s.positions.get? u).map fun p => columnsOf p.settledPart :=
      calc (newest u (es.filterMap positionWrite)).map PositionRow.settledColumns
          = ((followPositions es).get? u).map fun p => columnsOf p.settledPart := by
            rw [positionWrites, Option.map_map]
            rfl
        _ = (((followPositions es).get? u).map PositionUpdated.settledPart).map columnsOf := by
            rw [Option.map_map]
            rfl
        _ = ((s.positions.get? u).map Position.settledPart).map columnsOf := by
            rw [h.positions]
        _ = (s.positions.get? u).map fun p => columnsOf p.settledPart := Option.map_map ..
    rw [hafter.positions, Option.map_or]
    split_ifs with hwallet
    · rw [hcolumns]
    · rfl

end DbWriter

namespace EngineRuntime

theorem decoded_valid (entries : List InputEntry) :
    RunOf engineInputEventSchema (decoded entries) := by
  intro y hy
  obtain ⟨x, -, he, -⟩ := mem_decoded.mp hy
  exact (decodeWith_eq_some.mp he).2.2

/-- The engine runs and has come to the end of its input. -/
def CaughtUp (s : System) : Prop :=
  ∃ m ∈ s.memory, m.batch = [] ∧ m.work = .idle ∧ s.log.after s.group.lastDelivered = []

instance (s : System) : Decidable (CaughtUp s) :=
  inferInstanceAs (Decidable (∃ m ∈ s.memory, _))

/-- The steps that bring the loop on: its own, but no read that finds nothing. -/
def Working (s : System) : Action → Prop
  | .readNew reply => reply = .ok ∧ s.log.after s.group.lastDelivered ≠ []
  | .publish reply | .ack reply => reply = .ok
  | .dispatch => True
  | _ => False

def Advances (cfg : Config) (s t : System) : Prop := ∃ a, Working s a ∧ step cfg s a = some t

/-- How far the loop is from its next message. -/
def Work.rank : Work → ℕ
  | .publishing _ outputs => outputs.length + 1
  | .acking _ | .deadAcking _ => 1
  | .idle | .deadLettering _ => 0

theorem publish_rank (msg : InputMessage) (outputs : List EngineOutputEvent) :
    (publish msg outputs).rank = outputs.length + 1 := by
  cases outputs <;> rfl

/-- What is left to do, the entries that have not been dispatched first. -/
def distance (s : System) : ℕ × ℕ × ℕ :=
  match s.memory with
  | none => (0, 0, 0)
  | some m => (m.batch.length + (s.log.after s.group.lastDelivered).length, m.work.rank,
      (s.log.after s.group.lastDelivered).length)

section Calm

variable {cfg : Config}

theorem Working.smooth {s : System} {a : Action} (h : Working s a) : Smooth s a := by
  cases a with
  | readNew reply => exact h.1
  | publish reply => exact h
  | ack reply => exact h
  | dispatch => trivial
  | _ => cases h

theorem Advances.up {s t : System} (h : Advances cfg s t) : ∃ m, t.memory = some m := by
  obtain ⟨a, ha, hstep⟩ := h
  cases step_cases hstep with
  | readNew | dispatch | publish | ack | deadAck => exact ⟨_, rfl⟩
  | add | recover | crash | reclaim | deadLetter | saveSnapshot => cases ha

theorem distance_of_memory {s : System} {m : Memory} (hm : s.memory = some m) :
    distance s = (m.batch.length + (s.log.after s.group.lastDelivered).length, m.work.rank,
      (s.log.after s.group.lastDelivered).length) := by
  unfold distance
  rw [hm]

theorem dispatch_batch {m : Memory} {msg : InputMessage} {batch : List InputMessage}
    (hbatch : m.batch = msg :: batch) :
    (dispatch cfg { m with batch := batch } msg).batch = batch := by
  rcases dispatch_cases cfg hbatch with ⟨-, -, heq⟩ | ⟨-, -, heq⟩ | ⟨-, -, heq⟩ | ⟨e, -, -, heq⟩
  all_goals rw [heq]

/-- A read moves entries from the stream to the batch. -/
theorem readNew_distance (hcount : 0 < cfg.count) {s : System}
    (hmore : s.log.after s.group.lastDelivered ≠ []) :
    (s.group.readNew s.log cfg.count).2.length +
        (s.log.after (s.group.readNew s.log cfg.count).1.lastDelivered).length =
      (s.log.after s.group.lastDelivered).length ∧
    (s.log.after (s.group.readNew s.log cfg.count).1.lastDelivered).length <
      (s.log.after s.group.lastDelivered).length := by
  have hbatch : (s.group.readNew s.log cfg.count).2.length =
      ((s.log.after s.group.lastDelivered).take cfg.count).length := List.length_map _
  have hpos := List.length_pos_of_ne_nil hmore
  rw [Group.after_readNew, hbatch, List.length_take, List.length_drop]
  omega

theorem Advances.distance_lt (hcount : 0 < cfg.count) {s t : System} (h : Advances cfg s t) :
    Prod.Lex (· < ·) (Prod.Lex (· < ·) (· < ·)) (distance t) (distance s) := by
  obtain ⟨a, ha, hstep⟩ := h
  cases step_cases hstep with
  | readNew reply hm hwork hbatch =>
    obtain ⟨rfl, hmore⟩ := ha
    obtain ⟨hsum, hless⟩ := readNew_distance hcount hmore
    -- the entries only change places, but fewer are left in the stream
    rw [distance_of_memory hm, hbatch, List.length_nil, Nat.zero_add, ← hsum]
    exact Prod.Lex.right _ (Prod.Lex.right _ (hsum ▸ hless))
  | @dispatch m msg batch hm hwork hbatch =>
    -- however many outputs the handler has to publish, one entry less is left
    rw [distance_of_memory hm, distance_of_memory rfl, dispatch_batch hbatch, hbatch,
      List.length_cons]
    refine Prod.Lex.left _ _ ?_
    dsimp only
    omega
  | @publish reply m msg out outputs hm hwork =>
    obtain rfl : reply = .ok := ha
    rw [distance_of_memory hm, hwork]
    refine Prod.Lex.right _ (Prod.Lex.left _ _ ?_)
    rw [if_pos rfl, publish_rank]
    exact Nat.lt_succ_self _
  | ack reply hm hwork =>
    obtain rfl : reply = .ok := ha
    rw [distance_of_memory hm, hwork]
    exact Prod.Lex.right _ (Prod.Lex.left _ _ Nat.zero_lt_one)
  | deadAck reply hm hwork =>
    obtain rfl : reply = .ok := ha
    rw [distance_of_memory hm, hwork]
    exact Prod.Lex.right _ (Prod.Lex.left _ _ Nat.zero_lt_one)
  | add | recover | crash | reclaim | deadLetter | saveSnapshot => cases ha

variable {handled : List InputEntry} {s : System}

/-- The loop is never stuck before the end of its input. -/
theorem Straight.advances (hs : Straight cfg handled s) {m : Memory} (hm : s.memory = some m)
    (hend : ¬ CaughtUp s) : ∃ t, Advances cfg s t := by
  have hregular := (hs.up m hm).work
  match hwork : m.work with
  | .publishing msg (out :: outputs) =>
    exact ⟨_, .publish .ok, rfl, step_of_transition (.publish .ok hm hwork)⟩
  | .acking msg => exact ⟨_, .ack .ok, rfl, step_of_transition (.ack .ok hm hwork)⟩
  | .idle =>
    match hbatch : m.batch with
    | msg :: batch => exact ⟨_, .dispatch, trivial, step_of_transition (.dispatch hm hwork hbatch)⟩
    | [] =>
      have hmore : s.log.after s.group.lastDelivered ≠ [] := fun hnil =>
        hend ⟨m, hm, hbatch, hwork, hnil⟩
      exact ⟨_, .readNew .ok, ⟨rfl, hmore⟩, step_of_transition (.readNew .ok hm hwork hbatch)⟩
  | .publishing _ [] | .deadLettering _ | .deadAcking _ =>
    rw [hwork] at hregular
    exact hregular.elim

/-- A loop that goes on while it can comes to the end of its input. -/
theorem Straight.catchesUp (hmax : 0 < cfg.maxDeliveries) (hcount : 0 < cfg.count)
    {handled : List InputEntry} {f : ℕ → System} (hs : Straight cfg handled (f 0))
    (hup : ∃ m, (f 0).memory = some m)
    (hf : ∀ n, (∃ t, Advances cfg (f n) t) → Advances cfg (f n) (f (n + 1))) :
    ∃ n, CaughtUp (f n) := by
  by_cases hend : CaughtUp (f 0)
  · exact ⟨0, hend⟩
  · obtain ⟨m, hm⟩ := hup
    have hnext : Advances cfg (f 0) (f 1) := hf 0 (hs.advances hm hend)
    have hdistance := hnext.distance_lt hcount
    have hup' := hnext.up
    obtain ⟨a, ha, hstep⟩ := hnext
    obtain ⟨handled', hs'⟩ := straight_step hmax ha.smooth hstep hs
    obtain ⟨n, hn⟩ := Straight.catchesUp (f := fun n => f (n + 1)) hmax hcount hs' hup'
      fun n => hf (n + 1)
    exact ⟨n + 1, hn⟩
termination_by distance (f 0)
decreasing_by exact hdistance

theorem Straight.decoded_log (hs : Straight cfg handled s) :
    decoded s.log.entries = decoded handled ++ decoded (unhandled s) := by
  rw [hs.log]
  exact List.filterMap_append

/-- What has been published is a first part of one run's outputs. -/
theorem Straight.output_prefix (hs : Straight cfg handled s) :
    s.output <+: (run (createState cfg.market) (decoded s.log.entries)).2 := by
  rw [hs.decoded_log, run_append, ← hs.outputs, List.append_assoc]
  exact List.prefix_append _ _

theorem Straight.caughtUp (hs : Straight cfg handled s) (h : CaughtUp s) :
    engineOf cfg s = foldOf cfg.market s.log.entries ∧
      s.output = (run (createState cfg.market) (decoded s.log.entries)).2 := by
  obtain ⟨m, hm, hbatch, hwork, hend⟩ := h
  obtain ⟨hlog, hengine, houtputs⟩ := hs.memory hm
  rw [hbatch, hend, List.map_nil, List.append_nil, List.append_nil] at hlog
  rw [hwork, remaining_idle, List.append_nil] at houtputs
  rw [hlog]
  exact ⟨hs.engine, houtputs⟩

end Calm

/-- When nothing fails, the output stream is at every moment a first part of the outputs of one
run of the engine over the input stream; a loop that goes on while it can comes to the end of
that stream; and there the outputs are all of them, and projected in order they leave the
engine's accounts in the tables, as long as their numbers fit the columns. -/
theorem accounts_converge (cfg : Config) (hmax : 0 < cfg.maxDeliveries) (hcount : 0 < cfg.count)
    {as : List Action} {s : System} (hC : Along (step cfg) Smooth .init as)
    (hrun : runs (step cfg) .init as = some s) :
    s.output <+: (run (createState cfg.market) (decoded s.log.entries)).2 ∧
      (s.memory.isSome = true → ∀ f : ℕ → System, f 0 = s →
        (∀ n, (∃ t, Advances cfg (f n) t) → Advances cfg (f n) (f (n + 1))) →
          ∃ n, CaughtUp (f n)) ∧
      (CaughtUp s → s.output = (run (createState cfg.market) (decoded s.log.entries)).2 ∧
        ∀ (aborted : Bool) {db : DbWriter.Db} {outs : List (EngineOutputEvent × StreamId)},
          outs.map Prod.fst = s.output → (∀ x ∈ outs, x.1.eventId ∉ db.processedEvents) →
          (∀ x ∈ outs, DbWriter.Storable x.1) → (∀ x ∈ outs, ¬ DbWriter.Refused db x.1) →
          ∃ db', DbWriter.projectAllInt aborted db outs = some db' ∧
            DbWriter.Mirrors (engineOf cfg s) db db') := by
  obtain ⟨handled, hs⟩ := straight_run hmax hC hrun
  refine ⟨hs.output_prefix, fun hup f hstart hf => ?_, fun hend => ?_⟩
  · subst hstart
    exact hs.catchesUp hmax hcount (Option.isSome_iff_exists.mp hup) hf
  · obtain ⟨hengine, houtput⟩ := hs.caughtUp hend
    refine ⟨houtput, fun aborted {db outs} hlog hfresh hfits hok => ?_⟩
    have hfreshLog := DbWriter.freshLog_run (hlog.trans houtput) hfresh
    obtain ⟨db', hproject, hdelivered⟩ :=
      DbWriter.projectAll_delivered hfreshLog hok (.init db outs) rfl
    have htables := hdelivered.tables
    rw [hlog, houtput] at htables
    have hstart : Engine.Follows .empty .empty (createState cfg.market) :=
      ⟨fun _ => rfl, fun _ => rfl⟩
    have hfollows := run_follows (keysOK_createState cfg.market) hstart
      (decoded_valid s.log.entries)
    refine ⟨db', (DbWriter.projectAllInt_of_storable hfits aborted db).trans hproject, ?_⟩
    rw [hengine]
    exact DbWriter.mirrors_of_follows hfollows htables

end EngineRuntime

namespace Fixture

/-- A deposit comes in while the answer to the new user is on its way out. -/
def calmRun : List EngineRuntime.Action :=
  [.recover [], .add newUser, .readNew .ok, .dispatch, .saveSnapshot "a" 0, .add deposit,
    .publish .ok, .ack .ok, .readNew .ok, .dispatch, .publish .ok, .ack .ok]

def withIds (outs : List EngineOutputEvent) : List (EngineOutputEvent × StreamId) :=
  outs.mapIdx fun i out => (out, ⟨i + 1, 0⟩)

end Fixture

namespace EngineRuntime

open Fixture in
theorem accounts_converge_deposit :
    ∃ s db', runs (step CONFIG) .init calmRun = some s ∧ CaughtUp s ∧ s.output.length = 2 ∧
      DbWriter.projectAllInt true walletOfU (withIds s.output) = some db' ∧
      DbWriter.Mirrors (engineOf CONFIG s) walletOfU db' := by
  have hfacts : ∃ s ∈ runs (step CONFIG) .init calmRun, CaughtUp s ∧ s.output.length = 2 ∧
      (withIds s.output).map Prod.fst = s.output ∧
      (∀ x ∈ withIds s.output, DbWriter.Storable x.1) ∧
      ∀ x ∈ withIds s.output, DbWriter.fillWrite walletOfU x.1 = none := by
    decide +kernel
  obtain ⟨s, hs, hend, hlength, hlog, hfits, hnofill⟩ := hfacts
  obtain ⟨-, -, hconverges⟩ := accounts_converge CONFIG (by decide) (by decide)
    (by decide +kernel) hs
  obtain ⟨db', hproject, hmirrors⟩ := (hconverges hend).2 true hlog (fun _ _ => List.not_mem_nil)
    hfits fun x hx ⟨y, hy, _⟩ => absurd (hnofill x hx ▸ hy) (Option.not_mem_none y)
  exact ⟨s, db', hs, hend, hlength, hproject, hmirrors⟩

end EngineRuntime

end Perps
