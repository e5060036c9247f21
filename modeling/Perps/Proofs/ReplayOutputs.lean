import Perps.Proofs.Restore
import Perps.Domain.AccountDrafts
import Perps.Lib.Runs

/-! The outputs of an engine that is rebuilt from its snapshot. The rebuilt engine
goes through its positions in the order of their keys, the engine that was not
interrupted in the order in which they were created, so the two agree on the
outputs of a price exactly when it liquidates the old positions in the order of
their keys. -/

namespace Perps

open Lib

/-- A sublist of a list comes in the order of the sorted list exactly when it is sorted. -/
theorem filter_eq_sorted_iff {ks ks' : List String} (hperm : ks'.Perm ks)
    (hsorted : ks'.Pairwise fun a b => stringLe a b) (p : String → Bool) :
    ks'.filter p = ks.filter p ↔ (ks.filter p).Pairwise fun a b => stringLe a b := by
  constructor
  · intro h
    rw [← h]
    exact hsorted.sublist List.filter_sublist
  · intro h
    exact (hperm.filter p).eq_of_pairwise (fun a b _ _ => stringLe_antisymm a b)
      (hsorted.sublist List.filter_sublist) h

namespace Engine

/-- The positions of a rebuilt engine are sorted. -/
theorem restore_sorted (s : EngineState) : ∃ t, restore s = some t ∧
    Alike 0 (OrdMap.GrownFrom s.positions.keys ((s.positions.sorted stringLe).map Prod.fst)) s t := by
  obtain ⟨t, ht, hsame⟩ := restore_same s
  refine ⟨t, ht, by rw [hsame.rest]; rfl, hsame.balances, hsame.positions, ?_, fun hR => hR.elim⟩
  have hkeys : t.positions = OrdMap.ofEntries (s.positions.sorted stringLe) := by
    rw [restore_eq] at ht
    unfold fromSnapshot deserialize snapshot serialize at ht
    rw [if_neg (not_not.mpr rfl)] at ht
    obtain rfl := Option.some.inj ht
    rfl
  have hsorted : t.positions.keys = (s.positions.sorted stringLe).map Prod.fst := by
    rw [hkeys, OrdMap.keys, OrdMap.ofEntries_entries (s.positions.sorted_nodup stringLe)]
  rw [hsorted]
  exact .refl _ _

/-! The outputs of one price -/

section Price

variable {s t : EngineState} {ks ks' : List String}

theorem doomed_keys (s : EngineState) (markPrice : ℚ) :
    (doomed s markPrice).map Prod.fst =
      s.positions.keys.filter fun u => underwater markPrice (s.pos u) := by
  have hpos : ∀ x ∈ s.positions.entries, s.pos x.1 = x.2 := fun x hx => by
    rw [EngineState.pos, (s.positions.mem_entries_iff x.1 x.2).mp hx]
    rfl
  rw [doomed, OrdMap.keys, List.filter_map]
  congr 1
  refine List.filter_congr fun x hx => ?_
  rw [Function.comp_apply, hpos x hx]

/-- The sweep of the rebuilt engine goes through the same users in the same order
exactly when the old ones among them come in the order of their keys. -/
theorem liquidatedBy_grown (h : Alike 0 (OrdMap.GrownFrom ks ks') s t) (hperm : ks'.Perm ks)
    (hsorted : ks'.Pairwise fun a b => stringLe a b) (e : EngineInputEvent) :
    liquidatedBy t e = liquidatedBy s e ↔
      ((liquidatedBy s e).filter (· ∈ ks)).Pairwise fun a b => stringLe a b := by
  have hseq : t.lastObserverSeq = s.lastObserverSeq := by rw [h.rest]
  unfold liquidatedBy
  cases e.payload with
  | indexPriceUpdated p =>
    dsimp only
    rw [hseq]
    split_ifs
    · simp
    · obtain ⟨more, hs, ht⟩ := h.positionKeys
      have hnodup : (ks ++ more).Nodup := hs ▸ s.positions.nodup
      have hold : (ks.filter fun u => underwater p.price (s.pos u)).filter (· ∈ ks) =
          ks.filter fun u => underwater p.price (s.pos u) :=
        List.filter_eq_self.mpr fun u hu => decide_eq_true (List.mem_filter.mp hu).1
      have hnew : (more.filter fun u => underwater p.price (s.pos u)).filter (· ∈ ks) = [] := by
        refine List.filter_eq_nil_iff.mpr fun u hu hks => ?_
        exact (List.nodup_append'.mp hnodup).2.2 (of_decide_eq_true hks) (List.mem_filter.mp hu).1
      rw [doomed_keys, doomed_keys, hs, ht, List.filter_append, List.filter_append,
        List.filter_append, hold, hnew, List.append_nil]
      simp only [h.pos]
      rw [List.append_left_inj]
      exact filter_eq_sorted_iff hperm hsorted _
  | _ => simp

/-- The users whose liquidation is drafted. -/
def liquidatedIn (outs : List DraftOutput) : List String :=
  outs.filterMap fun
    | .positionLiquidated l => some l.userId
    | _ => none

theorem liquidatedIn_drafts (s : EngineState) (liqs : List PositionLiquidated) :
    liquidatedIn (liqs.flatMap fun l => .positionLiquidated l :: accountEvents s l.userId) =
      liqs.map PositionLiquidated.userId := by
  induction liqs with
  | nil => rfl
  | cons l ls ih =>
    rw [List.flatMap_cons, liquidatedIn, List.filterMap_append, ← liquidatedIn, ← liquidatedIn, ih]
    rfl

/-- The drafts of an event name the users it liquidates, in their order. -/
theorem liquidatedIn_dispatch (hkeys : KeysOK s) {e : EngineInputEvent} {p : IndexPriceUpdated}
    (hp : e.payload = .indexPriceUpdated p) :
    liquidatedIn (dispatch s e).2 = liquidatedBy s e := by
  unfold dispatch liquidatedBy
  rw [hp]
  dsimp only
  unfold onIndexPrice
  split_ifs
  · rfl
  · dsimp only
    rw [liquidationDrafts_eq, List.nil_append, liquidatedIn_drafts, liquidationSweep_snd,
      doomed_markToMarket, List.map_map, List.map_map]
    refine List.map_congr_left fun x hx => ?_
    show x.2.userId = x.1
    exact hkeys.entry (List.mem_filter.mp hx).1

/-- The users of `ks` that a new event liquidates come in the order of their keys. -/
def InOrder (ks : List String) (s : EngineState) (e : EngineInputEvent) : Prop :=
  ¬ alreadyApplied s e = true →
    ((liquidatedBy s e).filter (· ∈ ks)).Pairwise fun a b => stringLe a b

instance (ks : List String) (s : EngineState) (e : EngineInputEvent) : Decidable (InOrder ks s e) :=
  inferInstanceAs (Decidable (_ → _))

theorem process_outputs_iff (h : Alike 0 (OrdMap.GrownFrom ks ks') s t) (hkeys : KeysOK s)
    (hperm : ks'.Perm ks) (hsorted : ks'.Pairwise fun a b => stringLe a b) (e : EngineInputEvent)
    (id : StreamId) : (process t e id).2 = (process s e id).2 ↔ InOrder ks s e := by
  have horder := liquidatedBy_grown h hperm hsorted e
  constructor
  · intro houts ha
    rw [← horder]
    have hpay := congrArg (List.map EngineOutputEvent.payload) houts
    rw [process_payloads, process_payloads, reduce_of_new ha,
      reduce_of_new (alreadyApplied_alike h e ▸ ha)] at hpay
    cases hp : e.payload with
    | indexPriceUpdated p =>
      rw [← liquidatedIn_dispatch hkeys hp, ← liquidatedIn_dispatch (keysOK_of_pos hkeys h.pos) hp]
      exact congrArg liquidatedIn hpay
    | _ => simp only [liquidatedBy, hp]
  · intro hin
    by_cases ha : alreadyApplied s e = true
    · rw [process_applied ha, process_applied ((alreadyApplied_alike h e).trans ha)]
    · exact process_outputs h hkeys (horder.mpr (hin ha)) id

theorem process_outputs_length (h : Alike 0 (OrdMap.GrownFrom ks ks') s t) (hkeys : KeysOK s)
    (e : EngineInputEvent) (id : StreamId) :
    (process t e id).2.length = (process s e id).2.length := by
  by_cases ha : alreadyApplied s e = true
  · rw [process_applied ha, process_applied ((alreadyApplied_alike h e).trans ha)]
  · have hlen := (dispatch_alike h hkeys e).2
    have hmap (s : EngineState) : (process s e id).2.length = (reduce s e).2.length := by
      rw [← process_payloads s e id, List.length_map]
    rw [hmap, hmap, reduce_of_new ha, reduce_of_new (alreadyApplied_alike h e ▸ ha)]
    exact hlen

end Price

/-! Runs -/

/-- Every price of the run liquidates the users in `ks` in the order of their keys. -/
def SweepsInOrder (ks : List String) (s : EngineState) (evs : List (EngineInputEvent × StreamId)) :
    Prop :=
  Along advance (fun s x => InOrder ks s x.1) s evs

instance (ks : List String) (s : EngineState) (evs : List (EngineInputEvent × StreamId)) :
    Decidable (SweepsInOrder ks s evs) :=
  inferInstanceAs (Decidable (Along _ _ _ _))

theorem run_outputs_iff {s t : EngineState} {ks ks' : List String}
    (h : Alike 0 (OrdMap.GrownFrom ks ks') s t) (hkeys : KeysOK s) (hperm : ks'.Perm ks)
    (hsorted : ks'.Pairwise fun a b => stringLe a b) {evs : List (EngineInputEvent × StreamId)}
    (hevs : RunOf engineInputEventSchema evs) :
    (run t evs).2 = (run s evs).2 ↔ SweepsInOrder ks s evs := by
  induction evs generalizing s t with
  | nil => exact ⟨fun _ => trivial, fun _ => rfl⟩
  | cons x xs ih =>
    have hx := hevs x List.mem_cons_self
    have ih := ih (process_alike h hkeys x.1 x.2) (keysOK_step hkeys x.1 x.2)
      fun y hy => hevs y (List.mem_cons_of_mem _ hy)
    have hhead := process_outputs_iff h hkeys hperm hsorted x.1 x.2
    have hsteps : SweepsInOrder ks s (x :: xs) ↔
        InOrder ks s x.1 ∧ SweepsInOrder ks (process s x.1 x.2).1 xs := by
      exact along_cons _ s x xs
    rw [run_cons, run_cons, hsteps, ← ih, ← hhead]
    constructor
    · intro houts
      exact List.append_inj houts (process_outputs_length h hkeys x.1 x.2)
    · rintro ⟨h1, h2⟩
      dsimp only
      rw [h1, h2]

theorem restored_outputs_iff {s t : EngineState} (hkeys : KeysOK s) (ht : restore s = some t)
    {evs : List (EngineInputEvent × StreamId)} (hevs : RunOf engineInputEventSchema evs) :
    (run t evs).2 = (run s evs).2 ↔ SweepsInOrder s.positions.keys s evs := by
  obtain ⟨t', ht', halike⟩ := restore_sorted s
  obtain rfl := Option.some.inj (ht.symm.trans ht')
  refine run_outputs_iff halike hkeys ?_ ?_ hevs
  · exact (OrdMap.sorted_perm stringLe _).map Prod.fst
  · exact List.pairwise_map.mpr (s.positions.sorted_pairwise stringLe_trans stringLe_total)

/-- An engine that is rebuilt at the split answers the rest of the run with the
outputs of the engine that goes on, exactly when every price of the rest
liquidates those who had a position at the split in the order of their keys. -/
theorem replay_outputs_iff (market : MarketConfig) {before after : List (EngineInputEvent × StreamId)}
    (hevs : RunOf engineInputEventSchema (before ++ after)) :
    ∃ t, restore (run (createState market) before).1 = some t ∧
      ((run t after).2 = (run (run (createState market) before).1 after).2 ↔
        SweepsInOrder (run (createState market) before).1.positions.keys
          (run (createState market) before).1 after) := by
  have hkeys := keysOK_steps (keysOK_createState market) before
  obtain ⟨t, ht, -⟩ := restore_same (run (createState market) before).1
  exact ⟨t, ht, restored_outputs_iff hkeys ht fun x hx => hevs x (List.mem_append_right _ hx)⟩

open Fixture in
/-- Two longs of users who were created in the order of their ids, and a price
that liquidates both after the split. -/
theorem replay_outputs_sorted :
    ∃ t, restore (run (createState MARKET) (numbered
        [user "a" 1000000, user "m" 1000000, user "z" 1000000,
          place "m" "a1" .Ask .LIMIT 1000 2 10 200, place "a" "b1" .Bid .LIMIT 1000 1 10 100,
          place "z" "b2" .Bid .LIMIT 1000 1 10 100])).1 = some t ∧
      ((run t [(evt none (.indexPriceUpdated ⟨"BTCUSDT", 500, 1, 0⟩), ⟨7, 0⟩)]).2 =
        (run (run (createState MARKET) (numbered
          [user "a" 1000000, user "m" 1000000, user "z" 1000000,
            place "m" "a1" .Ask .LIMIT 1000 2 10 200, place "a" "b1" .Bid .LIMIT 1000 1 10 100,
            place "z" "b2" .Bid .LIMIT 1000 1 10 100])).1
          [(evt none (.indexPriceUpdated ⟨"BTCUSDT", 500, 1, 0⟩), ⟨7, 0⟩)]).2 ↔
        SweepsInOrder (run (createState MARKET) (numbered
          [user "a" 1000000, user "m" 1000000, user "z" 1000000,
            place "m" "a1" .Ask .LIMIT 1000 2 10 200, place "a" "b1" .Bid .LIMIT 1000 1 10 100,
            place "z" "b2" .Bid .LIMIT 1000 1 10 100])).1.positions.keys
          (run (createState MARKET) (numbered
            [user "a" 1000000, user "m" 1000000, user "z" 1000000,
              place "m" "a1" .Ask .LIMIT 1000 2 10 200, place "a" "b1" .Bid .LIMIT 1000 1 10 100,
              place "z" "b2" .Bid .LIMIT 1000 1 10 100])).1
          [(evt none (.indexPriceUpdated ⟨"BTCUSDT", 500, 1, 0⟩), ⟨7, 0⟩)]) :=
  replay_outputs_iff MARKET (by decide +kernel)

open Fixture in
/-- The user `z` gets a position before `a` does. A price that liquidates both
after the split draws `z` first, and after a restart `a`. -/
theorem replay_outputs_reordered :
    ¬ ∀ before after : List (EngineInputEvent × StreamId),
      RunOf engineInputEventSchema (before ++ after) →
      ∀ t, restore (run (createState MARKET) before).1 = some t →
        (run t after).2 = (run (run (createState MARKET) before).1 after).2 := by
  intro h
  let before := numbered [user "z" 1000000, user "m" 1000000, user "a" 1000000,
    place "m" "a1" .Ask .LIMIT 1000 2 10 200, place "z" "b1" .Bid .LIMIT 1000 1 10 100,
    place "a" "b2" .Bid .LIMIT 1000 1 10 100]
  let after : List (EngineInputEvent × StreamId) :=
    [(evt none (.indexPriceUpdated ⟨"BTCUSDT", 500, 1, 0⟩), ⟨7, 0⟩)]
  have hkeys : KeysOK (run (createState MARKET) before).1 :=
    keysOK_steps (keysOK_createState MARKET) before
  obtain ⟨t, ht, -⟩ := restore_same (run (createState MARKET) before).1
  have houts := h before after (by decide +kernel) t ht
  rw [restored_outputs_iff hkeys ht (by decide +kernel)] at houts
  have hnot : ¬ SweepsInOrder (run (createState MARKET) before).1.positions.keys
      (run (createState MARKET) before).1 after := by decide +kernel
  exact hnot houts

end Engine

end Perps
