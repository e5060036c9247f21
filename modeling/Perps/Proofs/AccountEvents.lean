import Perps.Proofs.Restore
import Perps.Domain.AccountDrafts
import Perps.Lib.Feed

/-! The account events as a changelog. Every handler drafts the balance and the
position of each user whose records it has changed, after the last change, so
that the last payload a user was sent is what the engine stores. -/

namespace Perps

open Lib Engine

/-! The two feeds -/

/-- The part of a position that ticks leave alone. -/
structure SettledPart where
  size : ℚ
  entryPrice : ℚ
  margin : ℚ
  leverage : ℚ
  liqPrice : ℚ
  realizedPnl : ℚ
  deriving DecidableEq, Repr

def PositionUpdated.settledPart (p : PositionUpdated) : SettledPart :=
  ⟨p.size, p.entryPrice, p.margin, p.leverage, p.liqPrice, p.realizedPnl⟩

def Position.settledPart (p : Position) : SettledPart :=
  ⟨p.size, p.entryPrice, p.margin, p.leverage, p.liqPrice, p.realizedPnl⟩

def balanceEntry : DraftOutput → Option (String × Option BalanceUpdated)
  | .balanceUpdated b => some (b.userId, some b)
  | _ => none

def positionEntry : DraftOutput → Option (String × Option PositionUpdated)
  | .positionUpdated p => some (p.userId, some p)
  | _ => none

/-- The last `balance.updated` payload of every user. -/
def followBalances (outs : List EngineOutputEvent) : OrdMap String BalanceUpdated :=
  applyFeed OrdMap.empty ((outs.map EngineOutputEvent.payload).filterMap balanceEntry)

/-- The last `position.updated` payload of every user. -/
def followPositions (outs : List EngineOutputEvent) : OrdMap String PositionUpdated :=
  applyFeed OrdMap.empty ((outs.map EngineOutputEvent.payload).filterMap positionEntry)

/-- The drafts of a step from `s` to `t` say what `t` stores, for every user
whose records have changed. -/
structure Announced (s t : EngineState) (outs : List DraftOutput) : Prop where
  balances : ∀ x ∈ outs.filterMap balanceEntry,
    x.2 = (t.balances.get? x.1).map (balancePayload x.1)
  positions : ∀ x ∈ outs.filterMap positionEntry,
    x.2.map PositionUpdated.settledPart = (t.positions.get? x.1).map Position.settledPart
  changedBalances : ∀ u, t.balances.get? u ≠ s.balances.get? u →
    u ∈ (outs.filterMap balanceEntry).map Prod.fst
  changedPositions : ∀ u, (t.positions.get? u).map Position.settledPart ≠
    (s.positions.get? u).map Position.settledPart → u ∈ (outs.filterMap positionEntry).map Prod.fst

namespace Engine

theorem entries_accountEvents (s : EngineState) (users : List String) :
    (users.flatMap (accountEvents s)).filterMap balanceEntry =
        (users.map fun u => (u, some (balancePayload u (s.bal u)))) ∧
      (users.flatMap (accountEvents s)).filterMap positionEntry =
        users.map fun u => (u, some (positionPayload u (s.pos u))) := by
  induction users with
  | nil => exact ⟨rfl, rfl⟩
  | cons u us ih =>
    rw [List.flatMap_cons, List.filterMap_append, List.filterMap_append, ih.1, ih.2]
    exact ⟨rfl, rfl⟩

/-- Drafting the users who may have changed announces the change. -/
theorem announced_drafted {s t : EngineState} {users : List String} {outs : List DraftOutput}
    (hb : outs.filterMap balanceEntry = (users.flatMap (accountEvents t)).filterMap balanceEntry)
    (hp : outs.filterMap positionEntry = (users.flatMap (accountEvents t)).filterMap positionEntry)
    (hsameb : ∀ u, u ∉ users → t.balances.get? u = s.balances.get? u)
    (hsamep : ∀ u, u ∉ users → (t.positions.get? u).map Position.settledPart =
      (s.positions.get? u).map Position.settledPart) :
    Announced s (users.foldl drafted t) outs := by
  obtain ⟨heb, hep⟩ := entries_accountEvents t users
  have hrec (v : String) := foldl_drafted_records t users v
  refine ⟨fun x hx => ?_, fun x hx => ?_, fun u hu => ?_, fun u hu => ?_⟩
  · rw [hb, heb] at hx
    obtain ⟨u, hu, rfl⟩ := List.mem_map.mp hx
    have hstored := congrArg Prod.fst (hrec u)
    rw [if_pos hu] at hstored
    exact (congrArg (Option.map (balancePayload u)) hstored).symm
  · rw [hp, hep] at hx
    obtain ⟨u, hu, rfl⟩ := List.mem_map.mp hx
    have hstored := congrArg Prod.snd (hrec u)
    rw [if_pos hu] at hstored
    exact (congrArg (Option.map Position.settledPart) hstored).symm
  · rw [hb, heb, List.map_map]
    by_contra hnot
    have hnot : u ∉ users := by simpa using hnot
    have hstored := congrArg Prod.fst (hrec u)
    rw [if_neg hnot] at hstored
    exact hu (hstored.trans (hsameb u hnot))
  · rw [hp, hep, List.map_map]
    by_contra hnot
    have hnot : u ∉ users := by simpa using hnot
    have hstored := congrArg Prod.snd (hrec u)
    rw [if_neg hnot] at hstored
    exact hu ((congrArg (Option.map Position.settledPart) hstored).trans (hsamep u hnot))

theorem announced_quiet {s t : EngineState} {outs : List DraftOutput}
    (hb : ∀ d ∈ outs, balanceEntry d = none) (hp : ∀ d ∈ outs, positionEntry d = none)
    (hbal : t.balances = s.balances) (hpos : t.positions = s.positions) : Announced s t outs := by
  have hb := List.filterMap_eq_nil_iff.mpr hb
  have hp := List.filterMap_eq_nil_iff.mpr hp
  refine ⟨by simp [hb], by simp [hp], fun u hu => ?_, fun u hu => ?_⟩
  · rw [hbal] at hu
    exact absurd rfl hu
  · rw [hpos] at hu
    exact absurd rfl hu

/-! Which users an accepted order changes -/

section Frame

variable {s : EngineState}

theorem records_lock {u v : String} (a : ℚ) (hv : v ≠ u) :
    records (lock s u a).1 v = records s v := by
  unfold lock ensureBalance records
  cases s.balances.get? u <;> dsimp only <;> split_ifs <;> simp [OrdMap.get?_set, hv]

theorem records_release {u v : String} (a : ℚ) (hv : v ≠ u) :
    records (release s u a).1 v = records s v := by
  rw [release_eq]
  unfold records
  rw [OrdMap.get?_set_ne _ hv]

theorem records_applyFill {u v : String} (side : Side) (price f fm lev : ℚ) (hv : v ≠ u) :
    records (applyFill s u side price f fm lev) v = records s v := by
  rw [applyFill_eq]
  generalize fillLeg _ _ _ _ _ _ _ _ = r
  obtain ⟨b, p⟩ := r
  unfold records EngineState.withAccount
  cases b <;> simp [OrdMap.get?_set, hv]

theorem mem_addUser {users : List String} {u v : String} :
    v ∈ addUser users u ↔ v ∈ users ∨ v = u := by
  unfold addUser
  split_ifs with hu
  · constructor
    · exact Or.inl
    · rintro (hv | rfl)
      · exact hv
      · exact hu
  · simp

variable (e : EnvelopeMeta) (o : PlaceOrder)

theorem records_settleFill {m : Matching} {x : RestingOrder} {v : String} (hx : v ≠ x.userId)
    (ho : v ≠ o.userId) : records (settleFill e o m x).state v = records m.state v := by
  have hmaker := records_applyFill (s := m.state) x.side x.price (min m.remaining x.remaining)
    (makerFillMargin x (min m.remaining x.remaining)) x.leverage hx
  refine Eq.trans ?_ hmaker
  exact records_applyFill o.side x.price (min m.remaining x.remaining)
    (takerFillMargin o (min m.remaining x.remaining)) o.leverage ho

theorem settleAll_affected (m : Matching) (os : List RestingOrder) (v : String) :
    v ∈ (settleAll e o m os).affected ↔ v ∈ m.affected ∨ v ∈ os.map RestingOrder.userId := by
  induction os generalizing m with
  | nil => simp [settleAll]
  | cons x xs ih =>
    refine (ih (settleFill e o m x)).trans ?_
    rw [settleFill_affected, mem_addUser, List.map_cons, List.mem_cons, or_assoc]

theorem records_settleAll {m : Matching} {os : List RestingOrder} {v : String}
    (hos : v ∉ os.map RestingOrder.userId) (ho : v ≠ o.userId) :
    records (settleAll e o m os).state v = records m.state v := by
  induction os generalizing m with
  | nil => rfl
  | cons x xs ih =>
    rw [List.map_cons, List.mem_cons, not_or] at hos
    exact (ih (m := settleFill e o m x) hos.2).trans (records_settleFill e o hos.1 ho)

/-- The affected users of an accepted order: its own user, and those of its makers. -/
theorem matched_affected (v : String) : v ∈ (matched s e o).affected ↔
    v = o.userId ∨ v ∈ (reached s o).map RestingOrder.userId := by
  have hstart : v ∈ (matchStart (lock s o.userId o.margin).1 o).affected ↔ v = o.userId :=
    List.mem_singleton
  rw [(matched_spec s e o).affected, ← hstart]
  exact settleAll_affected e o _ _ v

/-- An accepted order changes the records of affected users only. -/
theorem records_placed {v : String} (hv : v ∉ (matched s e o).affected) :
    records (placedState s e o) v = records s v := by
  have hnot := (matched_affected e o v).not.mp hv
  rw [not_or] at hnot
  have hfilled : records (filledOrder s e o).state v = records s v :=
    (records_settleAll e o hnot.2 hnot.1).trans (records_lock o.margin hnot.1)
  have hmatched : records (matched s e o).state v = records s v := by
    rw [(matched_spec s e o).state]
    exact (records_setLevels _ _ _).trans hfilled
  have hrem := settleRemainder_cases e o (matched s e o)
  show records (settleRemainder e o (matched s e o)).1 v = _
  generalize settleRemainder e o (matched s e o) = r at hrem
  cases hrem with
  | rests => exact (records_setLevels _ _ _).trans hmatched
  | refunded => exact (records_release _ hnot.1).trans hmatched
  | filled => exact hmatched

end Frame

/-! The handlers -/

/-- Drafting the balance of the only user who may have changed. -/
theorem announced_balance {s t : EngineState} {u : String} {outs : List DraftOutput}
    (hb : outs.filterMap balanceEntry = [(u, some (balancePayload u (t.bal u)))])
    (hp : outs.filterMap positionEntry = [])
    (hbal : ∀ v, v ≠ u → t.balances.get? v = s.balances.get? v)
    (hpos : t.positions = s.positions) : Announced s (balanceDraft t u).1 outs := by
  have hstored (v : String) : (balanceDraft t u).1.balances.get? v =
      if v = u then some (t.bal u) else t.balances.get? v := by
    show (ensureBalance t u).1.balances.get? v = _
    unfold ensureBalance EngineState.bal
    by_cases hv : v = u
    · subst hv
      cases h : t.balances.get? v <;> simp [h]
    · cases t.balances.get? u <;> simp [hv, OrdMap.get?_set]
  have hpositions : (balanceDraft t u).1.positions = t.positions := by
    show (ensureBalance t u).1.positions = _
    unfold ensureBalance
    cases t.balances.get? u <;> rfl
  refine ⟨fun x hx => ?_, by simp [hp], fun v hv => ?_, fun v hv => ?_⟩
  · rw [hb, List.mem_singleton] at hx
    subst hx
    rw [hstored, if_pos rfl]
    rfl
  · rw [hb]
    by_contra hnot
    have hvu : v ≠ u := by simpa using hnot
    rw [hstored, if_neg hvu, hbal v hvu] at hv
    exact hv rfl
  · rw [hpositions, hpos] at hv
    exact absurd rfl hv

theorem get?_credit_ne (s : EngineState) {u v : String} (amount : ℚ) (hv : v ≠ u) :
    (credit s u amount).balances.get? v = s.balances.get? v := by
  rw [credit_eq]
  exact OrdMap.get?_set_ne _ hv _

theorem onUserCreated_announced (s : EngineState) (p : UserCreated) :
    Announced s (onUserCreated s p).1 (onUserCreated s p).2 := by
  have hensure (v : String) (hv : v ≠ p.userId) :
      (ensureBalance s p.userId).1.balances.get? v = s.balances.get? v := by
    unfold ensureBalance
    cases s.balances.get? p.userId
    · exact OrdMap.get?_set_ne _ hv _
    · rfl
  have hpos : (ensureBalance s p.userId).1.positions = s.positions := by
    unfold ensureBalance
    cases s.balances.get? p.userId <;> rfl
  unfold onUserCreated
  dsimp only
  split_ifs with ha
  · rw [credit_ensureBalance]
    refine announced_balance ?_ rfl (fun v hv => get?_credit_ne s _ hv) ?_
    · rw [balanceDraft_snd]
      rfl
    · rw [credit_eq]
  · refine announced_balance ?_ rfl hensure hpos
    rw [balanceDraft_snd]
    rfl

theorem onBalanceDeposited_announced (s : EngineState) (p : BalanceDeposited) :
    Announced s (onBalanceDeposited s p).1 (onBalanceDeposited s p).2 := by
  unfold onBalanceDeposited
  dsimp only
  rw [credit_ensureBalance]
  refine announced_balance ?_ rfl (fun v hv => get?_credit_ne s _ hv) ?_
  · rw [balanceDraft_snd]
    rfl
  · rw [credit_eq]

theorem onCancelOrder_announced (s : EngineState) (e : EnvelopeMeta) (c : CancelOrder) :
    Announced s (onCancelOrder s e c).1 (onCancelOrder s e c).2 := by
  unfold onCancelOrder
  cases ht : cancelTarget s c with
  | none => exact announced_quiet (by simp [balanceEntry]) (by simp [positionEntry]) rfl rfl
  | some target =>
    obtain ⟨level, hlevel, htarget, -⟩ := cancelTarget_eq_some ht
    dsimp only
    rw [cancelResting_eq hlevel htarget]
    dsimp only
    refine announced_balance ?_ rfl (fun v hv => ?_) ?_
    · rw [balanceDraft_snd]
      rfl
    · have hrec := congrArg Prod.fst
        ((records_release (s := withoutOrder s c level) target.margin hv).trans
          (records_setLevels _ _ v))
      exact hrec
    · rw [release_eq, withoutOrder]
      cases c.side <;> rfl

theorem entry_of_match {ds : List DraftOutput} (h : ∀ d ∈ ds, IsMatchDraft d) :
    ∀ d ∈ ds, balanceEntry d = none ∧ positionEntry d = none := by
  intro d hd
  rcases h d hd with ⟨t, rfl⟩ | ⟨x, rfl⟩ <;> exact ⟨rfl, rfl⟩

theorem placeAccepted_announced (s : EngineState) (e : EnvelopeMeta) (o : PlaceOrder) :
    Announced s (placeAccepted e o (lock s o.userId o.margin).1).1
      (placeAccepted e o (lock s o.userId o.margin).1).2 := by
  rw [placeAccepted_eq]
  have hrem := entry_of_match (settleRemainder_isMatch s e o)
  have hremb := List.filterMap_eq_nil_iff.mpr fun d hd => (hrem d hd).1
  have hremp := List.filterMap_eq_nil_iff.mpr fun d hd => (hrem d hd).2
  have hmakerb : ((matched s e o).makerTouched.entries.map makerReport).filterMap balanceEntry = [] := by
    rw [List.filterMap_map]
    exact List.filterMap_eq_nil_iff.mpr fun _ _ => rfl
  have hmakerp : ((matched s e o).makerTouched.entries.map makerReport).filterMap positionEntry = [] := by
    rw [List.filterMap_map]
    exact List.filterMap_eq_nil_iff.mpr fun _ _ => rfl
  refine announced_drafted ?_ ?_ (fun u hu => ?_) fun u hu => ?_
  · simp only [List.filterMap_append, hremb, hmakerb, List.nil_append]
    exact List.append_nil _
  · simp only [List.filterMap_append, hremp, hmakerp, List.nil_append]
    exact List.append_nil _
  · exact congrArg Prod.fst (records_placed e o hu)
  · exact congrArg (fun r => r.2.map Position.settledPart) (records_placed e o hu)

theorem onPlaceOrder_announced (s : EngineState) (e : EnvelopeMeta) (o : PlaceOrder) :
    Announced s (onPlaceOrder s e o).1 (onPlaceOrder s e o).2 := by
  rcases onPlaceOrder_cases s e o with ⟨reason, h⟩ | ⟨-, -, h⟩
  · rw [h]
    exact announced_quiet (by simp [rejectPlace, balanceEntry]) (by simp [rejectPlace, positionEntry]) rfl rfl
  · rw [h]
    exact placeAccepted_announced s e o

/-- A tick changes the records of liquidated users only, but for the mark. -/
theorem records_swept {s : EngineState} (hkeys : KeysOK s) (markPrice : ℚ) {v : String}
    (hv : v ∉ (liquidationSweep s markPrice).2.map PositionLiquidated.userId) :
    records (liquidationSweep s markPrice).1 v = records s v := by
  rw [liquidationSweep_records hkeys]
  cases hp : s.positions.get? v with
  | none => rfl
  | some p =>
    have hmem : (v, p) ∈ s.positions.entries := (s.positions.mem_entries_iff v p).mpr hp
    have hdry : ¬ underwater markPrice p = true := by
      intro hu
      apply hv
      rw [liquidationSweep_snd, List.map_map]
      refine List.mem_map.mpr ⟨(v, p), List.mem_filter.mpr ⟨hmem, hu⟩, ?_⟩
      exact hkeys.entry hmem
    simp [Option.filter, hdry]

theorem onIndexPrice_announced {s : EngineState} (hkeys : KeysOK s) (p : IndexPriceUpdated) :
    Announced s (onIndexPrice s p).1 (onIndexPrice s p).2 := by
  unfold onIndexPrice
  split_ifs
  · exact announced_quiet (by simp) (by simp) rfl rfl
  · have hmarked := keysOK_marked hkeys p
    dsimp only
    rw [liquidationDrafts_eq]
    have hentries (t : EngineState) (liqs : List PositionLiquidated) :
        (liqs.flatMap fun l => .positionLiquidated l :: accountEvents t l.userId).filterMap
            balanceEntry = ((liqs.map PositionLiquidated.userId).flatMap
              (accountEvents t)).filterMap balanceEntry ∧
          (liqs.flatMap fun l => .positionLiquidated l :: accountEvents t l.userId).filterMap
            positionEntry = ((liqs.map PositionLiquidated.userId).flatMap
              (accountEvents t)).filterMap positionEntry := by
      induction liqs with
      | nil => exact ⟨rfl, rfl⟩
      | cons l ls ih =>
        simp only [List.flatMap_cons, List.map_cons, List.filterMap_append, ih.1, ih.2]
        exact ⟨rfl, rfl⟩
    refine announced_drafted (hentries _ _).1 (hentries _ _).2 (fun u hu => ?_) fun u hu => ?_
    · exact congrArg Prod.fst (records_swept hmarked p.price hu)
    · have hrec := congrArg Prod.snd (records_swept hmarked p.price hu)
      refine (congrArg (Option.map Position.settledPart) hrec).trans ?_
      show ((s.positions.mapValues (markPosition p.price)).get? u).map _ = _
      rw [OrdMap.get?_mapValues, Option.map_map]
      rfl

theorem dispatch_announced {s : EngineState} (hkeys : KeysOK s) (e : EngineInputEvent) :
    Announced s (dispatch s e).1 (dispatch s e).2 := by
  unfold dispatch
  cases e.payload with
  | userCreated p => exact onUserCreated_announced s p
  | balanceDeposited p => exact onBalanceDeposited_announced s p
  | orderPlace o => exact onPlaceOrder_announced s e.toEnvelopeMeta o
  | orderCancel c => exact onCancelOrder_announced s e.toEnvelopeMeta c
  | indexPriceUpdated p => exact onIndexPrice_announced hkeys p

theorem process_announced {s : EngineState} (hkeys : KeysOK s) (e : EngineInputEvent)
    (id : StreamId) :
    Announced s (process s e id).1 ((process s e id).2.map EngineOutputEvent.payload) := by
  by_cases ha : alreadyApplied s e = true
  · rw [process_applied ha]
    exact announced_quiet (by simp) (by simp) rfl rfl
  · have h := dispatch_announced hkeys e
    have hcore := process_new ha id
    rw [process_payloads, reduce_of_new ha]
    refine ⟨?_, ?_, ?_, ?_⟩
    · rw [hcore.balances]
      exact h.balances
    · rw [hcore.positions]
      exact h.positions
    · rw [hcore.balances]
      exact h.changedBalances
    · rw [hcore.positions]
      exact h.changedPositions

/-- The two maps of a client that follows the account events. -/
structure Follows (balances : OrdMap String BalanceUpdated) (positions : OrdMap String PositionUpdated)
    (s : EngineState) : Prop where
  balances : ∀ u, balances.get? u = (s.balances.get? u).map (balancePayload u)
  positions : ∀ u, (positions.get? u).map PositionUpdated.settledPart =
    (s.positions.get? u).map Position.settledPart

/-- What a step announces brings the two maps up to date. -/
theorem Follows.step {balances : OrdMap String BalanceUpdated}
    {positions : OrdMap String PositionUpdated} {s t : EngineState} {outs : List DraftOutput}
    (h : Follows balances positions s) (ha : Announced s t outs) :
    Follows (applyFeed balances (outs.filterMap balanceEntry))
      (applyFeed positions (outs.filterMap positionEntry)) t := by
  constructor
  · intro u
    have hexact := applyFeed_exact (g := id) (m := balances)
      (f := fun u => (t.balances.get? u).map (balancePayload u))
      (fun x hx => by rw [Option.map_id]; exact ha.balances x hx) (fun k hk => ?_) u
    · rwa [Option.map_id] at hexact
    · refine ha.changedBalances k fun hsame => hk ?_
      rw [Option.map_id, hsame]
      exact h.balances k
  · intro u
    refine applyFeed_exact (g := PositionUpdated.settledPart)
      (f := fun u => (t.positions.get? u).map Position.settledPart)
      (fun x hx => ha.positions x hx) (fun k hk => ?_) u
    refine ha.changedPositions k fun hsame => hk ?_
    rw [hsame]
    exact h.positions k

theorem run_follows {s : EngineState} (hkeys : KeysOK s) {balances : OrdMap String BalanceUpdated}
    {positions : OrdMap String PositionUpdated} (h : Follows balances positions s)
    {evs : List (EngineInputEvent × StreamId)} (hevs : RunOf engineInputEventSchema evs) :
    Follows
      (applyFeed balances (((run s evs).2.map EngineOutputEvent.payload).filterMap balanceEntry))
      (applyFeed positions (((run s evs).2.map EngineOutputEvent.payload).filterMap positionEntry))
      (run s evs).1 := by
  induction evs generalizing s balances positions with
  | nil => exact h
  | cons x xs ih =>
    have hx := hevs x List.mem_cons_self
    have hrest := ih (keysOK_step hkeys x.1 x.2) (h.step (process_announced hkeys x.1 x.2))
      fun y hy => hevs y (List.mem_cons_of_mem _ hy)
    rw [run_cons]
    dsimp only
    rw [List.map_append, List.filterMap_append, List.filterMap_append, applyFeed_append,
      applyFeed_append]
    exact hrest

/-- The account events are a complete changelog: the last payloads of the users
are the engine's records, and no user is missing on either side. -/
theorem account_events_complete (market : MarketConfig)
    {evs : List (EngineInputEvent × StreamId)} (hevs : RunOf engineInputEventSchema evs) :
    Follows (followBalances (run (createState market) evs).2)
      (followPositions (run (createState market) evs).2) (run (createState market) evs).1 :=
  run_follows (keysOK_createState market) ⟨fun _ => rfl, fun _ => rfl⟩ hevs

open Fixture in
/-- A maker and a taker who is liquidated by a later tick. -/
theorem account_events_complete_liquidation :
    let s := run (createState MARKET) (numbered
      [user "m" 1000000, user "t" 1000000, place "m" "a1" .Ask .LIMIT 100 20 1 2000,
        place "t" "b1" .Bid .LIMIT 100 20 20 100,
        evt none (.indexPriceUpdated ⟨"BTCUSDT", 90, 1, 0⟩)])
    Follows (followBalances s.2) (followPositions s.2) s.1 :=
  account_events_complete MARKET (by decide +kernel)

end Engine

end Perps
