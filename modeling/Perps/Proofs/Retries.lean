import Perps.Domain.Identifiers
import Perps.Domain.Reachable
import Perps.DbWriter.Projector

/-! The projection under retries. An attempt that fails has no effect and leaves
the event pending, so that the events take effect in the order of their first
success. Every row ends with the newest write in that order. -/

namespace Perps

open Lib Engine

namespace DbWriter

/-- One delivery of an entry of the output stream to the projector. -/
structure Attempt where
  entry : EngineOutputEvent × StreamId
  fails : Bool
  deriving DecidableEq

/-- A call of `project` that fails, or throws, leaves the database as it was. -/
def attempt (db : Db) (a : Attempt) : Db :=
  if a.fails then db else (project db a.entry.1 a.entry.2).getD db

def deliver (db : Db) (sched : List Attempt) : Db := sched.foldl attempt db

/-- The entries are attempted in stream order, as far as first attempts go. -/
def FirstAttemptsInOrder (log : List (EngineOutputEvent × StreamId)) (sched : List Attempt) : Prop :=
  firsts (sched.map Attempt.entry) <+: log

instance (log : List (EngineOutputEvent × StreamId)) (sched : List Attempt) :
    Decidable (FirstAttemptsInOrder log sched) :=
  inferInstanceAs (Decidable (_ <+: _))

/-- The entries in the order of their first success. -/
def firstSuccesses (sched : List Attempt) : List (EngineOutputEvent × StreamId) :=
  firsts ((sched.filter fun a => !a.fails).map Attempt.entry)

/-- The projected tables agree row by row. -/
structure SameRows (db db' : Db) : Prop where
  orders : ∀ k, db'.orders.get? k = db.orders.get? k
  wallets : ∀ k, db'.wallets.get? k = db.wallets.get? k
  positions : ∀ k, db'.positions.get? k = db.positions.get? k
  fills : ∀ k, db'.fills.get? k = db.fills.get? k

/-- In both orders of the events the newest write to each row that is there has
the same value. -/
structure SameNewest (db : Db) (es es' : List EngineOutputEvent) : Prop where
  status : ∀ k, db.orders.has k = true →
    newest k (es'.filterMap statusWrite) = newest k (es.filterMap statusWrite)
  filled : ∀ k, db.orders.has k = true →
    newest k (es'.filterMap filledWrite) = newest k (es.filterMap filledWrite)
  avgPrice : ∀ k, db.orders.has k = true →
    newest k (es'.filterMap avgPriceWrite) = newest k (es.filterMap avgPriceWrite)
  wallet : ∀ k, db.wallets.has k = true →
    newest k (es'.filterMap walletWrite) = newest k (es.filterMap walletWrite)
  position : ∀ k, db.wallets.has k = true →
    newest k (es'.filterMap positionWrite) = newest k (es.filterMap positionWrite)

/-! The entries of a log -/

/-- The trade whose fill row the event writes. -/
def fillKey (db : Db) (x : EngineOutputEvent × StreamId) : Option String :=
  (fillWrite db x.1).map Prod.fst

/-- The entries of an output log, none of them on record. -/
structure FreshLog (db : Db) (log : List (EngineOutputEvent × StreamId)) : Prop where
  eventIds : (log.map fun x => x.1.eventId).Nodup
  fills : (log.filterMap (fillKey db)).Nodup
  fresh : ∀ x ∈ log, x.1.eventId ∉ db.processedEvents

theorem fillKey_trade (db : Db) (x : EngineOutputEvent × StreamId) :
    fillKey db x = none ∨ ∃ p, x.1.payload = .tradeExecuted p ∧ fillKey db x = some p.tradeId := by
  unfold fillKey fillWrite
  cases x.1.payload with
  | tradeExecuted p =>
    dsimp only
    cases walletId db p.makerUserId with
    | none => exact Or.inl rfl
    | some mw =>
      cases walletId db p.takerUserId with
      | none => exact Or.inl rfl
      | some tw => exact Or.inr ⟨p, rfl, rfl⟩
  | _ => exact Or.inl rfl

theorem fillKeys_sublist (db : Db) (log : List (EngineOutputEvent × StreamId)) :
    (log.filterMap (fillKey db)).Sublist
      ((trades ((log.map Prod.fst).map EngineOutputEvent.payload)).map TradeExecuted.tradeId) := by
  induction log with
  | nil => exact .slnil
  | cons x xs ih =>
    have hcons : trades (((x :: xs).map Prod.fst).map EngineOutputEvent.payload) =
        trades [x.1.payload] ++ trades ((xs.map Prod.fst).map EngineOutputEvent.payload) := by
      rw [← trades_append]
      rfl
    rw [hcons, List.map_append]
    rcases fillKey_trade db x with hx | ⟨p, hp, hx⟩
    · rw [List.filterMap_cons_none hx]
      exact ih.trans (List.sublist_append_right _ _)
    · rw [List.filterMap_cons_some hx, hp]
      exact ih.cons_cons _

/-- A log that the engine has written. -/
theorem freshLog_run {market : MarketConfig} {evs : List (EngineInputEvent × StreamId)} {db : Db}
    {log : List (EngineOutputEvent × StreamId)}
    (hlog : log.map Prod.fst = (run (createState market) evs).2)
    (hfresh : ∀ x ∈ log, x.1.eventId ∉ db.processedEvents) : FreshLog db log where
  eventIds := by
    have h := (run_eventIds (createState market) evs).nodup eventIdOf_injective
    rw [← hlog, List.map_map] at h
    exact h
  fills := by
    have h := (run_tradeIds (createState market) evs).nodup (tradeIdOf_injective _)
    rw [← hlog] at h
    exact h.sublist (fillKeys_sublist db log)
  fresh := hfresh

/-! Deliveries -/

/-- The database has taken in the entries `done`, in this order, and nothing else. -/
structure Delivered (db : Db) (log : List (EngineOutputEvent × StreamId)) (db' : Db)
    (done : List (EngineOutputEvent × StreamId)) : Prop where
  processed : db'.processedEvents = db.processedEvents ++ done.map fun x => x.1.eventId
  tables : TablesAfter db (done.map Prod.fst) db'
  nodup : done.Nodup
  subset : done ⊆ log
  accepted : ∀ x ∈ done, ¬ Refused db x.1

section Deliver

variable {db db' : Db} {log done : List (EngineOutputEvent × StreamId)}
  {x : EngineOutputEvent × StreamId}

theorem Delivered.init (db : Db) (log : List (EngineOutputEvent × StreamId)) :
    Delivered db log db [] where
  processed := (List.append_nil _).symm
  tables := .refl db
  nodup := .nil
  subset := List.nil_subset _
  accepted := by simp

theorem Delivered.recorded_iff (h : Delivered db log db' done) (hlog : FreshLog db log)
    (hx : x ∈ log) : x.1.eventId ∈ db'.processedEvents ↔ x ∈ done := by
  rw [h.processed, List.mem_append, List.mem_map]
  constructor
  · rintro (hold | ⟨y, hy, hxy⟩)
    · exact absurd hold (hlog.fresh x hx)
    · exact List.inj_on_of_nodup_map hlog.eventIds (h.subset hy) hx hxy ▸ hy
  · intro hdone
    exact Or.inr ⟨x, hdone, rfl⟩

/-- Whether an event can be stored does not depend on what has been stored before. -/
theorem Delivered.refused_iff (h : Delivered db log db' done) (hlog : FreshLog db log)
    (hx : x ∈ log) (hnew : x ∉ done) : Refused db' x.1 ↔ Refused db x.1 := by
  have hfill : ∀ y ∈ fillWrite db x.1, db'.fills.has y.1 = db.fills.has y.1 := by
    intro y hy
    have hkey : fillKey db x = some y.1 := by
      rw [fillKey, hy]
      rfl
    have hnone : oldest y.1 ((done.map Prod.fst).filterMap (fillWrite db)) = none := by
      refine oldest_of_notMem ?_
      rw [keys_filterMap, List.filterMap_map, List.mem_filterMap]
      rintro ⟨z, hz, hzkey⟩
      exact hnew (key_unique hlog.fills hx (h.subset hz) hkey hzkey ▸ hz)
    unfold OrdMap.has
    rw [h.tables.fills, hnone, Option.or_none]
  unfold Refused
  rw [h.tables.fillWrite]
  refine exists_congr fun y => and_congr_right fun hy => ?_
  rw [hfill y hy, h.tables.has_order, h.tables.has_order]

/-- A delivery of an entry that was taken in before. -/
theorem Delivered.again (h : Delivered db log db' done) (hx : x ∈ done) :
    project db' x.1 x.2 = some db' := by
  refine project_recorded ?_
  rw [h.processed]
  exact List.mem_append_right _ (List.mem_map.mpr ⟨x, hx, rfl⟩)

theorem Delivered.refused (h : Delivered db log db' done) (hlog : FreshLog db log) (hx : x ∈ log)
    (hnew : x ∉ done) (hr : Refused db x.1) : project db' x.1 x.2 = none := by
  have hrec := (h.recorded_iff hlog hx).not.mpr hnew
  exact (project_eq_none hrec).mpr ((h.refused_iff hlog hx hnew).mpr hr)

/-- The first success of an entry. -/
theorem Delivered.step (h : Delivered db log db' done) (hlog : FreshLog db log) (hx : x ∈ log)
    (hnew : x ∉ done) (hok : ¬ Refused db x.1) :
    ∃ db'', project db' x.1 x.2 = some db'' ∧ Delivered db log db'' (done ++ [x]) := by
  have hrec := (h.recorded_iff hlog hx).not.mpr hnew
  have hsome : project db' x.1 x.2 ≠ none := fun hnone =>
    hok ((h.refused_iff hlog hx hnew).mp ((project_eq_none hrec).mp hnone))
  obtain ⟨db'', hdb⟩ := Option.ne_none_iff_exists'.mp hsome
  obtain ⟨hprocessed, htables⟩ := project_new hrec hdb
  refine ⟨db'', hdb, ?_, ?_, ?_, ?_, ?_⟩
  · rw [hprocessed, h.processed, List.append_assoc, List.map_append]
    rfl
  · rw [List.map_append]
    exact h.tables.trans htables
  · refine List.nodup_append.mpr ⟨h.nodup, List.nodup_singleton x, fun a ha b hb => ?_⟩
    rw [List.mem_singleton.mp hb]
    exact fun hax => hnew (hax ▸ ha)
  · exact List.append_subset.mpr ⟨h.subset, by simpa using hx⟩
  · intro y hy
    rcases List.mem_append.mp hy with hy | hy
    · exact h.accepted y hy
    · rw [List.mem_singleton.mp hy]
      exact hok

theorem deliver_snoc (db : Db) (sched : List Attempt) (a : Attempt) :
    deliver db (sched ++ [a]) = attempt (deliver db sched) a := List.foldl_append

/-- Whatever the schedule, some of the entries have been taken in. -/
theorem deliver_some (hlog : FreshLog db log) (sched : List Attempt)
    (hsched : ∀ a ∈ sched, a.entry ∈ log) : ∃ done, Delivered db log (deliver db sched) done := by
  induction sched using List.reverseRecOn with
  | nil => exact ⟨[], .init db log⟩
  | append_singleton sched a ih =>
    obtain ⟨done, h⟩ := ih fun b hb => hsched b (List.mem_append_left _ hb)
    have ha : a.entry ∈ log := hsched a (List.mem_append_right _ List.mem_cons_self)
    rw [deliver_snoc, attempt]
    split_ifs with hfails
    · exact ⟨done, h⟩
    by_cases hdone : a.entry ∈ done
    · exact ⟨done, by rwa [h.again hdone]⟩
    by_cases hr : Refused db a.entry.1
    · exact ⟨done, by rwa [h.refused hlog ha hdone hr]⟩
    · obtain ⟨db'', hdb, hnext⟩ := h.step hlog ha hdone hr
      exact ⟨_, by rwa [hdb]⟩

/-- Events that can be stored are taken in in the order of their first success. -/
theorem deliver_firstSuccesses (hlog : FreshLog db log) (hok : ∀ x ∈ log, ¬ Refused db x.1)
    (sched : List Attempt) (hsched : ∀ a ∈ sched, a.entry ∈ log) :
    Delivered db log (deliver db sched) (firstSuccesses sched) := by
  induction sched using List.reverseRecOn with
  | nil => exact .init db log
  | append_singleton sched a ih =>
    have h := ih fun b hb => hsched b (List.mem_append_left _ hb)
    have ha : a.entry ∈ log := hsched a (List.mem_append_right _ List.mem_cons_self)
    rw [deliver_snoc, attempt]
    by_cases hfails : a.fails = true
    · have hsame : firstSuccesses (sched ++ [a]) = firstSuccesses sched := by
        simp [firstSuccesses, hfails]
      rw [if_pos hfails, hsame]
      exact h
    · have hone : ([a].filter fun a => !a.fails).map Attempt.entry = [a.entry] := by simp [hfails]
      rw [if_neg hfails, firstSuccesses, List.filter_append, List.map_append, hone, firsts_snoc]
      split_ifs with hdone
      · rwa [h.again hdone]
      · obtain ⟨db'', hdb, hdelivered⟩ := h.step hlog ha hdone (hok _ ha)
        rwa [hdb]

/-- Every entry once, in stream order. -/
theorem projectAll_delivered (hlog : FreshLog db log) (hok : ∀ x ∈ log, ¬ Refused db x.1)
    {rest : List (EngineOutputEvent × StreamId)} (h : Delivered db log db' done)
    (hrest : done ++ rest = log) :
    ∃ once, projectAll db' rest = some once ∧ Delivered db log once log := by
  have hnodup : log.Nodup := List.Nodup.of_map _ hlog.eventIds
  induction rest generalizing db' done with
  | nil =>
    rw [List.append_nil] at hrest
    exact ⟨db', rfl, hrest ▸ h⟩
  | cons x xs ih =>
    have hx : x ∈ log := hrest ▸ List.mem_append_right _ List.mem_cons_self
    have hnew : x ∉ done := by
      rw [← hrest] at hnodup
      exact fun hdone => (List.nodup_append.mp hnodup).2.2 x hdone x List.mem_cons_self rfl
    obtain ⟨db'', hdb, hnext⟩ := h.step hlog hx hnew (hok x hx)
    obtain ⟨once, honce, hdelivered⟩ := ih hnext (by rw [List.append_assoc]; exact hrest)
    exact ⟨once, by rw [projectAll, hdb]; exact honce, hdelivered⟩

end Deliver

/-! The rows -/

section Rows

variable {db once db' : Db} {es es' : List EngineOutputEvent}

theorem getD_inj {α : Type} {a b : Option α} (h : b.isSome = a.isSome) (v : α) :
    b.getD v = a.getD v ↔ b = a := by
  cases a <;> cases b <;> simp_all

theorem or_inj {α : Type} {a b : Option α} (h : b.isSome = a.isSome) (c : Option α) :
    b.or c = a.or c ↔ b = a := by
  cases a <;> cases b <;> simp_all

/-- Of the events in another order, the same keys have writes. -/
theorem newest_isSome_events {ν : Type} (h : es.Perm es') (f : EngineOutputEvent → Option (String × ν))
    (k : String) : (newest k (es'.filterMap f)).isSome = (newest k (es.filterMap f)).isSome :=
  newest_isSome_perm (h.filterMap f) k

theorem orderAfter_eq_iff (h : es.Perm es') (k : String) (row : OrderRow) :
    orderAfter es' k row = orderAfter es k row ↔
      newest k (es'.filterMap statusWrite) = newest k (es.filterMap statusWrite) ∧
      newest k (es'.filterMap filledWrite) = newest k (es.filterMap filledWrite) ∧
      newest k (es'.filterMap avgPriceWrite) = newest k (es.filterMap avgPriceWrite) := by
  simp only [orderAfter, OrderRow.mk.injEq]
  rw [getD_inj (newest_isSome_events h _ k), getD_inj (newest_isSome_events h _ k),
    getD_inj (newest_isSome_events h _ k)]

theorem walletAfter_eq_iff (h : es.Perm es') (k : String) (row : WalletRow) :
    walletAfter es' k row = walletAfter es k row ↔
      newest k (es'.filterMap walletWrite) = newest k (es.filterMap walletWrite) := by
  have hsome := newest_isSome_events h walletWrite k
  unfold walletAfter
  cases ha : newest k (es.filterMap walletWrite) with
  | none =>
    rw [ha, Option.isSome_none, Option.isSome_eq_false_iff, Option.isNone_iff_eq_none] at hsome
    rw [hsome]
    exact iff_of_true rfl rfl
  | some a =>
    rw [ha, Option.isSome_some] at hsome
    obtain ⟨b, hb⟩ := Option.isSome_iff_exists.mp hsome
    rw [hb]
    obtain ⟨t, f, l⟩ := a
    obtain ⟨t', f', l'⟩ := b
    simp

/-- Two databases that have taken in the same events in two orders. -/
theorem sameRows_iff (h : es.Perm es') (honce : TablesAfter db es once)
    (hafter : TablesAfter db es' db')
    (hfills : ((es.filterMap (fillWrite db)).map Prod.fst).Nodup) :
    SameRows once db' ↔ SameNewest db es es' := by
  constructor
  · intro hrows
    have horder (k : String) (hk : db.orders.has k = true) :
        ∃ row, orderAfter es' k row = orderAfter es k row := by
      obtain ⟨row, hrow⟩ := Option.isSome_iff_exists.mp hk
      have heq := hrows.orders k
      rw [hafter.orders, honce.orders, hrow] at heq
      exact ⟨row, Option.some.inj heq⟩
    refine ⟨fun k hk => ?_, fun k hk => ?_, fun k hk => ?_, fun k hk => ?_, fun k hk => ?_⟩
    · obtain ⟨row, hrow⟩ := horder k hk
      exact ((orderAfter_eq_iff h k row).mp hrow).1
    · obtain ⟨row, hrow⟩ := horder k hk
      exact ((orderAfter_eq_iff h k row).mp hrow).2.1
    · obtain ⟨row, hrow⟩ := horder k hk
      exact ((orderAfter_eq_iff h k row).mp hrow).2.2
    · obtain ⟨row, hrow⟩ := Option.isSome_iff_exists.mp hk
      have heq := hrows.wallets k
      rw [hafter.wallets, honce.wallets, hrow] at heq
      exact (walletAfter_eq_iff h k row).mp (Option.some.inj heq)
    · have heq := hrows.positions k
      rw [hafter.positions, honce.positions, if_pos hk, if_pos hk] at heq
      exact (or_inj (newest_isSome_events h positionWrite k) _).mp heq
  · intro hnewest
    refine ⟨fun k => ?_, fun k => ?_, fun k => ?_, fun k => ?_⟩
    · rw [hafter.orders, honce.orders]
      cases hrow : db.orders.get? k with
      | none => rfl
      | some row =>
        have hk : db.orders.has k = true := Option.isSome_iff_exists.mpr ⟨row, hrow⟩
        exact congrArg some ((orderAfter_eq_iff h k row).mpr
          ⟨hnewest.status k hk, hnewest.filled k hk, hnewest.avgPrice k hk⟩)
    · rw [hafter.wallets, honce.wallets]
      cases hrow : db.wallets.get? k with
      | none => rfl
      | some row =>
        have hk : db.wallets.has k = true := Option.isSome_iff_exists.mpr ⟨row, hrow⟩
        exact congrArg some ((walletAfter_eq_iff h k row).mpr (hnewest.wallet k hk))
    · rw [hafter.positions, honce.positions]
      split_ifs with hk
      · rw [hnewest.position k hk]
      · rfl
    · rw [hafter.fills, honce.fills, oldest_perm hfills (h.filterMap _)]

end Rows

/-- The rows under a schedule are those of one pass in stream order exactly when
each row's newest write in the order of first successes is its newest write. -/
theorem projection_under_retries {market : MarketConfig}
    {evs : List (EngineInputEvent × StreamId)} {db : Db}
    {log : List (EngineOutputEvent × StreamId)} {sched : List Attempt}
    (hlog : log.map Prod.fst = (run (createState market) evs).2)
    (hfresh : ∀ x ∈ log, x.1.eventId ∉ db.processedEvents)
    (hsched : ∀ a ∈ sched, a.entry ∈ log)
    (hall : ∀ x ∈ log, x.1.eventId ∈ (deliver db sched).processedEvents) :
    ∃ once, projectAll db log = some once ∧
      (SameRows once (deliver db sched) ↔
        SameNewest db (log.map Prod.fst) ((firstSuccesses sched).map Prod.fst)) := by
  have hlogOK := freshLog_run hlog hfresh
  obtain ⟨done, hdone⟩ := deliver_some hlogOK sched hsched
  have hok : ∀ x ∈ log, ¬ Refused db x.1 := fun x hx =>
    hdone.accepted x ((hdone.recorded_iff hlogOK hx).mp (hall x hx))
  have hdelivered := deliver_firstSuccesses hlogOK hok sched hsched
  obtain ⟨once, honce, htables⟩ := projectAll_delivered hlogOK hok (.init db log) rfl
  have hperm : log.Perm (firstSuccesses sched) :=
    (List.perm_ext_iff_of_nodup htables.nodup hdelivered.nodup).mpr fun x =>
      ⟨fun hx => (hdelivered.recorded_iff hlogOK hx).mp (hall x hx), fun hx => hdelivered.subset hx⟩
  refine ⟨once, honce, sameRows_iff (hperm.map Prod.fst) htables.tables hdelivered.tables ?_⟩
  rw [keys_filterMap, List.filterMap_map]
  exact hlogOK.fills

end DbWriter

namespace Fixture

open DbWriter

def deposits : List (EngineInputEvent × StreamId) :=
  numbered [user "u" 1000, evt "c" (.balanceDeposited ⟨"u", 500⟩)]

/-- The balance of `u` after the opening credit, and after the deposit. -/
def depositLog : List (EngineOutputEvent × StreamId) :=
  (run (createState MARKET) deposits).2.mapIdx fun i out => (out, ⟨i + 1, 0⟩)

def walletOfU : Db where
  processedEvents := []
  lastEventId := none
  orders := OrdMap.empty
  wallets := OrdMap.empty.set "u" { id := "w", balance := 0, freeBalance := 0, lockedBalance := 0 }
  positions := OrdMap.empty
  fills := OrdMap.empty

/-- The first event fails once, and succeeds after the second. -/
def lateRetry : List Attempt :=
  (depositLog.take 1).map (Attempt.mk · true) ++ (depositLog.drop 1).map (Attempt.mk · false) ++
    (depositLog.take 1).map (Attempt.mk · false)

end Fixture

namespace DbWriter

open Fixture in
theorem projection_under_lateRetry :
    ∃ once, projectAll walletOfU depositLog = some once ∧
      (SameRows once (deliver walletOfU lateRetry) ↔
        SameNewest walletOfU (depositLog.map Prod.fst) ((firstSuccesses lateRetry).map Prod.fst)) :=
  @projection_under_retries MARKET deposits walletOfU depositLog lateRetry (by decide +kernel)
    (by decide +kernel) (by decide +kernel) (by decide +kernel)

open Fixture in
/-- The retried event overwrites the wallet with the balance before the deposit. -/
theorem lateRetry_loses_deposit :
    RunOf engineInputEventSchema deposits ∧
      depositLog.map Prod.fst = (run (createState MARKET) deposits).2 ∧
      (∀ x ∈ depositLog, x.1.eventId ∉ walletOfU.processedEvents) ∧
      FirstAttemptsInOrder depositLog lateRetry ∧
      (∀ x ∈ depositLog, x.1.eventId ∈ (deliver walletOfU lateRetry).processedEvents) ∧
      (deliver walletOfU lateRetry).wallets.get? "u" =
        some { id := "w", balance := 1000, freeBalance := 1000, lockedBalance := 0 } ∧
      ∀ once, projectAll walletOfU depositLog = some once →
        once.wallets.get? "u" =
            some { id := "w", balance := 1500, freeBalance := 1500, lockedBalance := 0 } ∧
          ¬ SameRows once (deliver walletOfU lateRetry) := by
  have hlate : (deliver walletOfU lateRetry).wallets.get? "u" =
      some { id := "w", balance := 1000, freeBalance := 1000, lockedBalance := 0 } := by
    decide +kernel
  have hwallet : (projectAll walletOfU depositLog).map (fun db => db.wallets.get? "u") =
      some (some { id := "w", balance := 1500, freeBalance := 1500, lockedBalance := 0 }) := by
    decide +kernel
  refine ⟨by decide +kernel, by decide +kernel, by decide +kernel, by decide +kernel,
    by decide +kernel, hlate, ?_⟩
  intro once honce
  rw [honce] at hwallet
  have hbefore : once.wallets.get? "u" = _ := Option.some.inj hwallet
  refine ⟨hbefore, fun hrows => ?_⟩
  have h := hrows.wallets "u"
  rw [hlate, hbefore] at h
  exact absurd h (by decide)

end DbWriter

end Perps
