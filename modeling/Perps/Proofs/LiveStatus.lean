import Perps.Proofs.OrderReports
import Perps.DbWriter.Projector
import Perps.Domain.AccountDrafts

/-! The status of resting orders in the database. The projector sets the status
that the newest report on an order names. A failed cancellation is reported as a
rejection of the order it names, and a maker's report is computed from the
quantity that came to rest, so that the status of an order on the book is live as
long as no cancellation misses an order that rests, and no fill leaves on the book
what its report takes for filled. -/

namespace Perps

open Lib Engine DbWriter

/-- The statuses that `deleteOrder` lets through. -/
def DbWriter.Status.live : Status → Bool
  | .PENDING | .OPEN | .PARTIALLYFILLED => true
  | .FILLED | .CANCELLED | .REJECTED | .CLOSE => false

/-- Every resting order has a row with a live status. -/
def LiveRows (db : Db) (s : EngineState) : Prop :=
  ∀ x ∈ s.resting, ∃ row ∈ db.orders.get? x.orderId, row.status.live = true

/-- The status that a draft sets. -/
def statusEntry : DraftOutput → Option (String × Status)
  | .orderAccepted p => some (p.orderId, statusMap p.status)
  | .orderRejected p => some (p.orderId, .REJECTED)
  | .orderCancelled p => some (p.orderId, .CANCELLED)
  | _ => none

theorem statusWrites_eq (outs : List EngineOutputEvent) :
    outs.filterMap statusWrite = (outs.map EngineOutputEvent.payload).filterMap statusEntry := by
  rw [List.filterMap_map]
  refine List.filterMap_congr fun evt _ => ?_
  cases hp : evt.payload <;> simp only [Function.comp_apply, statusWrite, statusEntry, hp]

/-- The rows are live once the statuses have been set. -/
def LiveAfter (db : Db) (statuses : List (String × Status)) (s : EngineState) : Prop :=
  ∀ x ∈ s.resting, ∃ row ∈ db.orders.get? x.orderId,
    ((newest x.orderId statuses).getD row.status).live = true

theorem liveRows_after {db db' : Db} {outs : List EngineOutputEvent} (h : TablesAfter db outs db')
    (s : EngineState) : LiveRows db' s ↔
      LiveAfter db ((outs.map EngineOutputEvent.payload).filterMap statusEntry) s := by
  rw [← statusWrites_eq]
  refine forall₂_congr fun x _ => ?_
  rw [h.orders]
  constructor
  · rintro ⟨row, hrow, hlive⟩
    obtain ⟨old, hold, rfl⟩ := Option.mem_map.mp hrow
    exact ⟨old, hold, hlive⟩
  · rintro ⟨old, hold, hlive⟩
    exact ⟨_, Option.mem_map_of_mem _ hold, hlive⟩

namespace Engine

/-! What the fills leave, off the grid as well -/

/-- An order that is left was not reached, or is what its fill leaves. -/
theorem afterFills_cases {os : List RestingOrder} (hids : (os.map RestingOrder.orderId).Nodup)
    {r : ℚ} {x : RestingOrder} (hx : x ∈ afterFills os r) :
    (x ∈ os ∧ x.orderId ∉ (hits os r).map fun f => f.1.orderId) ∨
      ∃ f ∈ hits os r, x = fillMaker f.1 f.2 ∧ x.remaining > 1e-9 := by
  induction os generalizing r with
  | nil => cases hx
  | cons y ys ih =>
    rw [List.map_cons, List.nodup_cons] at hids
    rw [afterFills] at hx
    rw [hits]
    split_ifs at hx ⊢ with hr
    · have hrest (hx : x ∈ afterFills ys (q (r - min r y.remaining))) := ih hids.2 hx
      have hcons : x ∈ afterFills ys (q (r - min r y.remaining)) →
          (x ∈ y :: ys ∧ x.orderId ∉ ((y, min r y.remaining) ::
            hits ys (q (r - min r y.remaining))).map fun f => f.1.orderId) ∨
          ∃ f ∈ (y, min r y.remaining) :: hits ys (q (r - min r y.remaining)),
            x = fillMaker f.1 f.2 ∧ x.remaining > 1e-9 := by
        intro hx
        rcases hrest hx with ⟨hys, hout⟩ | ⟨f, hf, hxf⟩
        · refine Or.inl ⟨List.mem_cons_of_mem _ hys, ?_⟩
          rw [List.map_cons, List.mem_cons, not_or]
          exact ⟨fun hid => hids.1 (List.mem_map.mpr ⟨x, hys, hid⟩), hout⟩
        · exact Or.inr ⟨f, List.mem_cons_of_mem _ hf, hxf⟩
      unfold shiftFilled at hx
      split_ifs at hx with hlive
      · exact hcons hx
      · rcases List.mem_cons.mp hx with rfl | hx
        · exact Or.inr ⟨_, List.mem_cons_self, rfl, not_le.mp hlive⟩
        · exact hcons hx
    · exact Or.inl ⟨hx, by simp⟩

/-- A maker that its fill does not exhaust is left. -/
theorem fillMaker_mem_afterFills {os : List RestingOrder} {r : ℚ} {f : RestingOrder × ℚ}
    (hf : f ∈ hits os r) (hlive : (fillMaker f.1 f.2).remaining > 1e-9) :
    fillMaker f.1 f.2 ∈ afterFills os r := by
  induction os generalizing r with
  | nil => cases hf
  | cons y ys ih =>
    rw [hits] at hf
    rw [afterFills]
    split_ifs at hf ⊢ with hr
    · unfold shiftFilled
      rcases List.mem_cons.mp hf with rfl | hf
      · rw [if_neg (not_le.mpr hlive)]
        exact List.mem_cons_self
      · split_ifs
        · exact ih hf
        · exact List.mem_cons_of_mem _ (ih hf)
    · cases hf

/-! The statuses that the events of a handler set -/

theorem statusEntry_account {ds : List DraftOutput} (h : ∀ d ∈ ds, IsAccountDraft d) :
    ds.filterMap statusEntry = [] := by
  refine List.filterMap_eq_nil_iff.mpr fun d hd => ?_
  rcases h d hd with ⟨b, rfl⟩ | ⟨p, rfl⟩ <;> rfl

theorem statusEntry_match {ds : List DraftOutput} (h : ∀ d ∈ ds, IsMatchDraft d) :
    ds.filterMap statusEntry = [] := by
  refine List.filterMap_eq_nil_iff.mpr fun d hd => ?_
  rcases h d hd with ⟨t, rfl⟩ | ⟨x, rfl⟩ <;> rfl

/-- The status that the report on a maker sets. -/
def makerStatus (f : RestingOrder × ℚ) : String × Status :=
  (f.1.orderId, if q (f.1.quantity - q f.2) > 1e-9 then .PARTIALLYFILLED else .FILLED)

theorem statusEntry_makerReports (F : List (RestingOrder × ℚ)) :
    ((F.map recordedOf).map makerReport).filterMap statusEntry = F.map makerStatus := by
  induction F with
  | nil => rfl
  | cons f F ih =>
    rw [List.map_cons, List.map_cons, List.map_cons, List.filterMap_cons, ih]
    unfold makerReport statusEntry makerStatus recordedOf
    dsimp only
    split_ifs <;> rfl

section Placed

variable {s : EngineState} (hids : (s.resting.map RestingOrder.orderId).Nodup)

include hids in
theorem crossing_ids_nodup (o : PlaceOrder) :
    ((crossing o (levelsFor s (maker_side o.side))).map RestingOrder.orderId).Nodup := by
  have h := ((BookOK.resting_perm s o.side).map RestingOrder.orderId).nodup_iff.mp hids
  rw [List.map_append] at h
  have h := h.of_append_right
  rw [ordersOf_eq o, List.map_append] at h
  exact h.of_append_left

include hids in
/-- The makers' reports come first, and then the report on the order itself. -/
theorem placeAccepted_statuses (e : EnvelopeMeta) (o : PlaceOrder) :
    (placeAccepted e o (lock s o.userId o.margin).1).2.filterMap statusEntry =
      (fillsOf s o).map makerStatus ++
        [(o.orderId, statusMap (settleRemainder e o (matched s e o)).2.2)] := by
  obtain ⟨ds, hall, h⟩ := placeAccepted_drafts s e o
  have hmatch : (settleRemainder e o (matched s e o)).2.1.filterMap statusEntry = [] := by
    have hm := statusEntry_match (matched_drafts s e o)
    rcases settleRemainder_drafts e o (matched s e o) with hd | ⟨x, hd⟩
    · rw [hd, hm]
    · rw [hd, List.filterMap_append, hm]
      rfl
  rw [h, matched_recorded e (crossing_ids_nodup hids o), List.filterMap_append,
    List.filterMap_append, List.filterMap_append, hmatch, statusEntry_makerReports,
    statusEntry_account hall]
  simp [takerReport, statusEntry]

/-- The resting orders after an accepted order, part by part. -/
theorem placed_resting_parts {s : EngineState} (h : BookOK s) (e : EnvelopeMeta) (o : PlaceOrder) :
    (placedState s e o).resting.Perm (ownRest e o (matched s e o) ++ (ordersOf (levelsFor s o.side) ++
      (afterFills (crossing o (levelsFor s (maker_side o.side))) o.quantity ++
        beyond o (levelsFor s (maker_side o.side))))) := by
  rw [← ordersOf_sweepLevels]
  exact (placed_resting h e o).trans ((matched_resting_perm s e o).append_left _)

theorem ownRest_live {e : EnvelopeMeta} {o : PlaceOrder} {m : Matching} {x : RestingOrder}
    (hx : x ∈ ownRest e o m) :
    x.orderId = o.orderId ∧ (statusMap (settleRemainder e o m).2.2).live = true := by
  unfold ownRest at hx
  split_ifs at hx with hrest
  · rw [List.mem_singleton] at hx
    refine ⟨by rw [hx]; rfl, ?_⟩
    have hrem := settleRemainder_cases e o m
    generalize settleRemainder e o m = r at hrem
    cases hrem with
    | rests =>
      dsimp only
      split_ifs <;> rfl
    | refunded ht => exact absurd (hrest.1.symm.trans ht) (by simp)
    | filled hr => exact absurd hrest.2 hr
  · cases hx

include hids in
theorem fills_ids_nodup (o : PlaceOrder) :
    (((fillsOf s o).map makerStatus).map Prod.fst).Nodup := by
  have hsub := (hits_sublist (crossing o (levelsFor s (maker_side o.side))) o.quantity).map
    RestingOrder.orderId
  rw [List.map_map] at hsub ⊢
  exact (crossing_ids_nodup hids o).sublist hsub

/-- The statuses that an accepted order sets. -/
def placedStatuses (s : EngineState) (e : EnvelopeMeta) (o : PlaceOrder) : List (String × Status) :=
  (fillsOf s o).map makerStatus ++
    [(o.orderId, statusMap (settleRemainder e o (matched s e o)).2.2)]

section Newest

variable (e : EnvelopeMeta) (o : PlaceOrder)

theorem newest_own : newest o.orderId (placedStatuses s e o) =
    some (statusMap (settleRemainder e o (matched s e o)).2.2) := by
  simp [placedStatuses, newest_append, newest]

theorem newest_other {id : String} (hid : id ≠ o.orderId) :
    newest id (placedStatuses s e o) = newest id ((fillsOf s o).map makerStatus) := by
  simp [placedStatuses, newest_append, newest, hid.symm]

theorem newest_unreached {id : String} (hid : id ≠ o.orderId)
    (hout : id ∉ (fillsOf s o).map fun f => f.1.orderId) : newest id (placedStatuses s e o) = none := by
  rw [newest_other e o hid]
  apply newest_of_notMem
  rw [List.map_map]
  exact hout

include hids in
theorem newest_maker {f : RestingOrder × ℚ} (hf : f ∈ fillsOf s o) (hid : f.1.orderId ≠ o.orderId) :
    newest f.1.orderId (placedStatuses s e o) = some (makerStatus f).2 := by
  rw [newest_other e o hid]
  exact newest_of_mem (fills_ids_nodup hids o) (List.mem_map_of_mem hf)

end Newest

/-- A fill that leaves its maker on the book leaves as much by the maker's report. -/
def FillsReported (s : EngineState) (o : PlaceOrder) : Prop :=
  ∀ f ∈ fillsOf s o, (fillMaker f.1 f.2).remaining > 1e-9 → q (f.1.quantity - q f.2) > 1e-9

theorem makerStatus_live (f : RestingOrder × ℚ) :
    (makerStatus f).2.live = true ↔ q (f.1.quantity - q f.2) > 1e-9 := by
  unfold makerStatus
  dsimp only
  split_ifs with h
  · exact iff_of_true rfl h
  · exact iff_of_false (by decide) h

include hids in
/-- After an accepted order. -/
theorem placed_live_iff (h : BookOK s) (e : EnvelopeMeta) {o : PlaceOrder} {db : Db}
    (hrows : LiveRows db s) (hnew : ∀ x ∈ s.resting, x.orderId ≠ o.orderId)
    (hrow : db.orders.has o.orderId = true) :
    LiveAfter db (placedStatuses s e o) (placedState s e o) ↔ FillsReported s o := by
  have hparts := placed_resting_parts h e o
  have hside := BookOK.resting_perm s o.side
  rw [ordersOf_eq o (levelsFor s (maker_side o.side))] at hside
  have hmaker {f : RestingOrder × ℚ} (hf : f ∈ fillsOf s o) :
      f.1 ∈ crossing o (levelsFor s (maker_side o.side)) := hits_mem (List.mem_map_of_mem hf)
  have hresting {f : RestingOrder × ℚ} (hf : f ∈ fillsOf s o) : f.1 ∈ s.resting :=
    hside.mem_iff.mpr (List.mem_append_right _ (List.mem_append_left _ (hmaker hf)))
  constructor
  · intro hall f hf hlive
    have hx : fillMaker f.1 f.2 ∈ (placedState s e o).resting :=
      hparts.mem_iff.mpr (List.mem_append_right _ (List.mem_append_right _
        (List.mem_append_left _ (fillMaker_mem_afterFills hf hlive))))
    obtain ⟨row, -, hstatus⟩ := hall _ hx
    have hid : (fillMaker f.1 f.2).orderId = f.1.orderId := rfl
    rw [hid, newest_maker hids e o hf (hnew _ (hresting hf)), Option.getD_some] at hstatus
    exact (makerStatus_live f).mp hstatus
  · intro hfills x hx
    have hnodup := (hside.map RestingOrder.orderId).nodup_iff.mp hids
    rw [List.map_append, List.map_append, List.nodup_append', List.nodup_append'] at hnodup
    obtain ⟨-, ⟨-, -, hbeyond⟩, hown⟩ := hnodup
    -- an order that is not reached keeps its row
    have hkept (hx : x ∈ s.resting) (hout : x.orderId ∉ (fillsOf s o).map fun f => f.1.orderId) :
        ∃ row ∈ db.orders.get? x.orderId,
          ((newest x.orderId (placedStatuses s e o)).getD row.status).live = true := by
      obtain ⟨row, hrow, hlive⟩ := hrows x hx
      refine ⟨row, hrow, ?_⟩
      rw [newest_unreached e o (hnew x hx) hout]
      exact hlive
    rcases List.mem_append.mp (hparts.mem_iff.mp hx) with hx | hx
    · obtain ⟨hid, hlive⟩ := ownRest_live hx
      obtain ⟨row, hrow⟩ := Option.isSome_iff_exists.mp hrow
      rw [hid, newest_own]
      exact ⟨row, hrow, hlive⟩
    rcases List.mem_append.mp hx with hx | hx
    · refine hkept (hside.mem_iff.mpr (List.mem_append_left _ hx)) fun hmem => ?_
      obtain ⟨f, hf, hid⟩ := List.mem_map.mp hmem
      refine hown (List.mem_map_of_mem hx) (List.mem_append_left _ ?_)
      exact List.mem_map.mpr ⟨f.1, hmaker hf, hid⟩
    rcases List.mem_append.mp hx with hx | hx
    · rcases afterFills_cases (crossing_ids_nodup hids o) hx with ⟨hx, hout⟩ | ⟨f, hf, rfl, hlive⟩
      · exact hkept (hside.mem_iff.mpr (List.mem_append_right _ (List.mem_append_left _ hx))) hout
      · obtain ⟨row, hrow, -⟩ := hrows f.1 (hresting hf)
        have hid : (fillMaker f.1 f.2).orderId = f.1.orderId := rfl
        rw [hid, newest_maker hids e o hf (hnew _ (hresting hf))]
        exact ⟨row, hrow, (makerStatus_live f).mpr (hfills f hf hlive)⟩
    · refine hkept (hside.mem_iff.mpr (List.mem_append_right _ (List.mem_append_right _ hx)))
        fun hmem => ?_
      obtain ⟨f, hf, hid⟩ := List.mem_map.mp hmem
      exact hbeyond (List.mem_map.mpr ⟨f.1, hmaker hf, hid⟩) (List.mem_map_of_mem hx)

end Placed

/-! One event -/

/-- A cancellation finds its order, or names none that rests, and the fills of an
accepted order are reported as they are. -/
def KeepsLive (s : EngineState) (e : EngineInputEvent) : Prop :=
  alreadyApplied s e = true ∨
    match e.payload with
    | .orderPlace o => Accepted s e o → FillsReported s o
    | .orderCancel c => (cancelTarget s c).isSome = true ∨ ∀ x ∈ s.resting, x.orderId ≠ c.orderId
    | _ => True

section Step

variable {s t : EngineState} {e : EngineInputEvent} {db : Db}

theorem SameCore.resting (h : SameCore s t) : t.resting = s.resting := by
  rw [EngineState.resting, h.bids, h.asks]
  rfl

theorem effect_resting (heff : Effect s e t) (hplace : ∀ o, e.payload ≠ .orderPlace o)
    (hcancel : ∀ c, e.payload ≠ .orderCancel c) : t.resting = s.resting := by
  cases heff with
  | unchanged => rfl
  | opened h =>
    rw [h.core]
    rfl
  | credited u amount _ _ h =>
    rw [h.core, credit_eq]
    rfl
  | placed o hp => exact absurd hp (hplace o)
  | cancelled c level removed hp => exact absurd hp (hcancel c)
  | marked p _ _ h =>
    rw [h.core, markedState, liquidationSweep_core]
    rfl

/-- Only orders and cancellations set statuses. -/
theorem dispatch_no_status (s : EngineState) (hplace : ∀ o, e.payload ≠ .orderPlace o)
    (hcancel : ∀ c, e.payload ≠ .orderCancel c) : (dispatch s e).2.filterMap statusEntry = [] := by
  have hout := dispatch_outcome s e
  generalize dispatch s e = out at hout
  cases hout with
  | opened | deposited | stale => rfl
  | rejected o hp | placed o hp => exact absurd hp (hplace o)
  | missed c hp | cancelled c hp => exact absurd hp (hcancel c)
  | swept =>
    rw [List.filterMap_eq_nil_iff]
    intro d hd
    obtain ⟨l, -, hd⟩ := List.mem_flatMap.mp hd
    simp only [accountEvents, List.mem_cons, List.not_mem_nil, or_false] at hd
    rcases hd with rfl | rfl | rfl <;> rfl

theorem liveAfter_nil (h : LiveRows db s) (hrest : t.resting = s.resting) : LiveAfter db [] t := by
  intro x hx
  exact h x (hrest ▸ hx)

/-- One status is set, and not a live one. -/
theorem liveAfter_single {id : String} {st : Status} (hst : st.live = false)
    (hrows : ∀ x ∈ t.resting, ∃ row ∈ db.orders.get? x.orderId, row.status.live = true) :
    LiveAfter db [(id, st)] t ↔ ∀ x ∈ t.resting, x.orderId ≠ id := by
  constructor
  · intro hall x hx hid
    obtain ⟨row, -, hlive⟩ := hall x hx
    simp [newest, hid, hst] at hlive
  · intro hne x hx
    obtain ⟨row, hrow, hlive⟩ := hrows x hx
    refine ⟨row, hrow, ?_⟩
    have hnot : ¬ id = x.orderId := fun h => hne x hx h.symm
    simpa [newest, hnot] using hlive

/-- A cancellation that finds its order takes it off the book. -/
theorem cancel_live (hids : (s.resting.map RestingOrder.orderId).Nodup) (hrows : LiveRows db s)
    (m : EnvelopeMeta) {c : CancelOrder} {target : RestingOrder}
    (ht : cancelTarget s c = some target) :
    LiveAfter db ((onCancelOrder s m c).2.filterMap statusEntry) (onCancelOrder s m c).1 := by
  obtain ⟨level, hlevel, htarget, -⟩ := cancelTarget_eq_some ht
  have hperm := withoutOrder_resting hlevel htarget
  have hid : target.orderId = c.orderId := by simpa using List.find?_some htarget
  have hrest : (onCancelOrder s m c).1.resting = (withoutOrder s c level).resting := by
    unfold onCancelOrder
    rw [ht]
    dsimp only
    rw [cancelResting_eq hlevel htarget]
    dsimp only
    rw [(balanceDraft_same _ _).core, release_eq]
    rfl
  have hstatus : (onCancelOrder s m c).2.filterMap statusEntry = [(c.orderId, .CANCELLED)] := by
    unfold onCancelOrder
    rw [ht]
    dsimp only
    rw [cancelResting_eq hlevel htarget]
    rfl
  have hnodup := (hperm.map RestingOrder.orderId).nodup_iff.mp hids
  rw [List.map_cons, List.nodup_cons] at hnodup
  rw [hstatus, liveAfter_single rfl]
  · intro x hx hxid
    rw [hrest] at hx
    exact hnodup.1 (List.mem_map.mpr ⟨x, hx, hxid.trans hid.symm⟩)
  · intro x hx
    rw [hrest] at hx
    exact hrows x (hperm.mem_iff.mpr (List.mem_cons_of_mem _ hx))

/-- One event leaves the rows live exactly if it meets the condition. -/
theorem dispatch_live_iff (he : engineInputEventSchema e) (h : BookOK s)
    (hids : (s.resting.map RestingOrder.orderId).Nodup) (hrows : LiveRows db s)
    (hplaced : ∀ o, e.payload = .orderPlace o →
      db.orders.has o.orderId = true ∧ ∀ x ∈ s.resting, x.orderId ≠ o.orderId)
    (hfresh : ¬ alreadyApplied s e = true) :
    LiveAfter db ((dispatch s e).2.filterMap statusEntry) (dispatch s e).1 ↔ KeepsLive s e := by
  unfold KeepsLive
  rw [or_iff_right hfresh]
  have heff := dispatch_effect s e he
  cases hp : e.payload with
  | orderPlace o =>
    obtain ⟨hrow, hnew⟩ := hplaced o hp
    dsimp only
    by_cases hacc : Accepted s e o
    · rw [hacc.dispatch_eq, placeAccepted_statuses hids, forall_prop_of_true hacc]
      have hrest : (placeAccepted e.toEnvelopeMeta o (lock s o.userId o.margin).1).1.resting =
          (placedState s e.toEnvelopeMeta o).resting := by
        rw [(placeAccepted_same _ _ _).core]
        rfl
      refine Iff.trans ?_ (placed_live_iff hids h e.toEnvelopeMeta hrows hnew hrow)
      unfold LiveAfter
      rw [hrest]
      rfl
    · refine iff_of_true ?_ fun hacc' => absurd hacc' hacc
      have hdispatch : dispatch s e = onPlaceOrder s e.toEnvelopeMeta o := by
        unfold dispatch
        rw [hp]
      rcases onPlaceOrder_cases s e.toEnvelopeMeta o with ⟨reason, hreject⟩ | ⟨hr, hl, -⟩
      · rw [hdispatch, hreject]
        exact (liveAfter_single rfl hrows).mpr hnew
      · exact absurd ⟨hp, hfresh, hr, hl⟩ hacc
  | orderCancel c =>
    have hdispatch : dispatch s e = onCancelOrder s e.toEnvelopeMeta c := by
      unfold dispatch
      rw [hp]
    rw [hdispatch]
    cases ht : cancelTarget s c with
    | some target => exact iff_of_true (cancel_live hids hrows _ ht) (Or.inl (by simp [ht]))
    | none =>
      have hmiss : onCancelOrder s e.toEnvelopeMeta c = (s,
          [.orderRejected { orderId := c.orderId, userId := c.userId, reason := "order not found" },
            .commandRejected { commandId := e.commandId.getD c.orderId,
                               reason := "order not found" }]) := by
        unfold onCancelOrder
        rw [ht]
      rw [hmiss]
      refine (liveAfter_single rfl hrows).trans ?_
      simp [ht]
  | _ =>
    have hplace : ∀ o, e.payload ≠ .orderPlace o := by simp [hp]
    have hcancel : ∀ c, e.payload ≠ .orderCancel c := by simp [hp]
    refine iff_of_true ?_ trivial
    rw [dispatch_no_status s hplace hcancel]
    exact liveAfter_nil hrows (effect_resting heff hplace hcancel)

/-- The trades of an event are between orders that have rows. -/
theorem process_trade_rows (hrows : LiveRows db s)
    (hplaced : ∀ o, e.payload = .orderPlace o → db.orders.has o.orderId = true) (id : StreamId) :
    ∀ evt ∈ (process s e id).2, ∀ t, evt.payload = .tradeExecuted t →
      db.orders.has t.makerOrderId = true ∧ db.orders.has t.takerOrderId = true := by
  intro evt hevt t ht
  have hmem : t ∈ trades ((process s e id).2.map EngineOutputEvent.payload) :=
    List.mem_filterMap.mpr ⟨_, List.mem_map_of_mem hevt, by rw [ht]⟩
  by_cases hacc : ∃ o, Accepted s e o
  · obtain ⟨o, hacc⟩ := hacc
    rw [hacc.newTrades] at hmem
    obtain ⟨i, hi, rfl⟩ := List.mem_mapIdx.mp hmem
    have hx := BookOK.resting_of_side s (crossing_subset
      (hits_mem (List.mem_map_of_mem (f := Prod.fst) (List.getElem_mem hi))))
    obtain ⟨row, hrow, -⟩ := hrows _ hx
    exact ⟨Option.isSome_iff_exists.mpr ⟨row, hrow⟩, hplaced o hacc.payload⟩
  · rw [trades_of_quiet (process_quiet (not_exists.mp hacc) id)] at hmem
    cases hmem

theorem process_live_iff (he : engineInputEventSchema e) (h : BookOK s)
    (hids : (s.resting.map RestingOrder.orderId).Nodup) (hrows : LiveRows db s)
    (hplaced : ∀ o, e.payload = .orderPlace o →
      db.orders.has o.orderId = true ∧ ∀ x ∈ s.resting, x.orderId ≠ o.orderId) (id : StreamId) :
    ∃ db', applyAll db (process s e id).2 = some db' ∧
      TablesAfter db (process s e id).2 db' ∧
      (LiveRows db' (process s e id).1 ↔ KeepsLive s e) := by
  obtain ⟨db', hdb, hafter⟩ :=
    applyAll_after (process_trade_rows hrows (fun o ho => (hplaced o ho).1) id)
  refine ⟨db', hdb, hafter, ?_⟩
  rw [liveRows_after hafter]
  by_cases ha : alreadyApplied s e = true
  · rw [process_applied ha]
    exact iff_of_true (liveAfter_nil hrows rfl) (Or.inl ha)
  · have hrest := (process_new ha id).resting
    rw [← dispatch_live_iff he h hids hrows hplaced ha, process_payloads, reduce_of_new ha]
    unfold LiveAfter
    rw [hrest]

/-- The ids on the book stay distinct, and only the event's order is new. -/
theorem process_ids (he : engineInputEventSchema e) (h : BookOK s)
    (hids : (s.resting.map RestingOrder.orderId).Nodup)
    (hnew : ∀ o, e.payload = .orderPlace o → ∀ x ∈ s.resting, x.orderId ≠ o.orderId)
    (id : StreamId) : ((process s e id).1.resting.map RestingOrder.orderId).Nodup ∧
      ∀ x ∈ (process s e id).1.resting, (∃ y ∈ s.resting, x.orderId = y.orderId) ∨
        ∃ o, e.payload = .orderPlace o ∧ x.orderId = o.orderId := by
  by_cases hacc : ∃ o, Accepted s e o
  · obtain ⟨o, hacc⟩ := hacc
    rw [hacc.resting]
    refine ⟨placed_resting_distinct h hids _ (hnew o hacc.payload), fun x hx => ?_⟩
    rcases List.mem_append.mp ((placed_resting h e.toEnvelopeMeta o).mem_iff.mp hx) with hx | hx
    · exact Or.inr ⟨o, hacc.payload, (ownRest_live hx).1⟩
    rcases List.mem_append.mp ((matched_resting_perm s e.toEnvelopeMeta o).mem_iff.mp hx) with hx | hx
    · exact Or.inl ⟨x, BookOK.resting_of_side s hx, rfl⟩
    · have hthin := (sweepLevels_thinned o (h.side (maker_side o.side)) o.quantity).orders
      obtain ⟨y, hy, hxy⟩ := exists_of_mem_thinned hthin hx
      exact Or.inl ⟨y, BookOK.resting_of_side s hy, Reduced.orderId hxy⟩
  · obtain ⟨gone, hperm⟩ := process_resting he (not_exists.mp hacc) id
    have hnodup := (hperm.map RestingOrder.orderId).nodup_iff.mp hids
    rw [List.map_append] at hnodup
    exact ⟨hnodup.of_append_right,
      fun x hx => Or.inl ⟨x, hperm.mem_iff.mpr (List.mem_append_right _ hx), rfl⟩⟩

end Step

/-! Whole runs -/

/-- At every point of the run the events so far can be applied, and leave every
resting order with a live status. -/
def LiveThroughout (db : Db) (s : EngineState) (evs : List (EngineInputEvent × StreamId)) : Prop :=
  ∀ pre, pre <+: evs → ∃ db', applyAll db (run s pre).2 = some db' ∧ LiveRows db' (run s pre).1

theorem applyAll_append (db : Db) (xs ys : List EngineOutputEvent) :
    applyAll db (xs ++ ys) = applyAll db xs >>= fun db => applyAll db ys := List.foldlM_append

theorem liveThroughout_cons {db db' : Db} {s : EngineState} {x : EngineInputEvent × StreamId}
    {xs : List (EngineInputEvent × StreamId)} (hrows : LiveRows db s)
    (hdb : applyAll db (process s x.1 x.2).2 = some db') :
    LiveThroughout db s (x :: xs) ↔ LiveThroughout db' (process s x.1 x.2).1 xs := by
  have hstep (pre : List (EngineInputEvent × StreamId)) :
      applyAll db (run s (x :: pre)).2 = applyAll db' (run (process s x.1 x.2).1 pre).2 := by
    rw [run_cons, applyAll_append, hdb]
    rfl
  constructor
  · intro hall pre hpre
    obtain ⟨db'', hlast, hlive⟩ := hall (x :: pre) (List.prefix_cons_inj x |>.mpr hpre)
    exact ⟨db'', (hstep pre).symm.trans hlast, hlive⟩
  · intro hall pre hpre
    cases pre with
    | nil => exact ⟨db, rfl, hrows⟩
    | cons y pre =>
      obtain ⟨rfl, hrest⟩ := List.cons_prefix_cons.mp hpre
      obtain ⟨db'', hlast, hlive⟩ := hall pre hrest
      exact ⟨db'', (hstep pre).trans hlast, hlive⟩

theorem placedIds_cons (x : EngineInputEvent × StreamId) (xs : List (EngineInputEvent × StreamId)) :
    placedIds (x :: xs) = placedIds [x] ++ placedIds xs := by
  rw [← List.singleton_append, placedIds, List.filterMap_append]
  rfl

theorem placedIds_of_place {x : EngineInputEvent × StreamId} {o : PlaceOrder}
    (hp : x.1.payload = .orderPlace o) : placedIds [x] = [o.orderId] := by
  simp [placedIds, hp]

/-- A run from any state whose resting orders have live rows. -/
theorem run_live_iff {s : EngineState} {db : Db} {evs : List (EngineInputEvent × StreamId)}
    (hevs : RunOf engineInputEventSchema evs) (h : BookOK s)
    (hids : (s.resting.map RestingOrder.orderId).Nodup) (hrows : LiveRows db s)
    (honce : (placedIds evs).Nodup) (hhas : ∀ id ∈ placedIds evs, db.orders.has id = true)
    (hnew : ∀ x ∈ s.resting, x.orderId ∉ placedIds evs) :
    LiveThroughout db s evs ↔ Along advance (fun s x => KeepsLive s x.1) s evs := by
  induction evs generalizing s db with
  | nil =>
    refine iff_of_true (fun pre hpre => ?_) trivial
    rw [List.prefix_nil.mp hpre]
    exact ⟨db, rfl, hrows⟩
  | cons x xs ih =>
    have hx := hevs x List.mem_cons_self
    rw [placedIds_cons] at honce hhas hnew
    have hplaced : ∀ o, x.1.payload = .orderPlace o →
        db.orders.has o.orderId = true ∧ ∀ y ∈ s.resting, y.orderId ≠ o.orderId := by
      intro o hp
      rw [placedIds_of_place hp] at hhas hnew
      refine ⟨hhas _ List.mem_cons_self, fun y hy hid => hnew y hy ?_⟩
      rw [hid]
      exact List.mem_cons_self
    obtain ⟨db', hdb, hafter, hstep⟩ := process_live_iff hx h hids hrows hplaced x.2
    obtain ⟨hids', hfrom⟩ := process_ids hx h hids (fun o hp => (hplaced o hp).2) x.2
    have hrest (hlive : LiveRows db' (process s x.1 x.2).1) :=
      ih (fun y hy => hevs y (List.mem_cons_of_mem _ hy)) (bookOK_process h hx x.2) hids' hlive
        (List.nodup_append'.mp honce).2.1
        (fun id hid => (hafter.has_order id).trans (hhas id (List.mem_append_right _ hid)))
        (fun y hy hmem => by
          rcases hfrom y hy with ⟨z, hz, hid⟩ | ⟨o, hp, hid⟩
          · exact hnew z hz (List.mem_append_right _ (hid ▸ hmem))
          · refine (List.nodup_append'.mp honce).2.2 ?_ hmem
            rw [placedIds_of_place hp, hid]
            exact List.mem_cons_self)
    rw [liveThroughout_cons hrows hdb, along_cons]
    constructor
    · intro hall
      have hlive : LiveRows db' (process s x.1 x.2).1 := by
        obtain ⟨db'', heq, hlive⟩ := hall [] (List.nil_prefix)
        obtain rfl := Option.some.inj heq
        exact hlive
      exact ⟨hstep.mp hlive, (hrest hlive).mp hall⟩
    · rintro ⟨hkeeps, hall⟩
      exact (hrest (hstep.mpr hkeeps)).mpr hall

/-- The resting orders of a run have live statuses throughout exactly if every
event meets the condition. -/
theorem live_status (market : MarketConfig) {evs : List (EngineInputEvent × StreamId)}
    (hevs : RunOf engineInputEventSchema evs) (honce : (placedIds evs).Nodup) {db : Db}
    (hhas : ∀ id ∈ placedIds evs, db.orders.has id = true) :
    LiveThroughout db (createState market) evs ↔
      Along advance (fun s x => KeepsLive s x.1) (createState market) evs :=
  run_live_iff hevs (bookOK_createState market) .nil (by simp [LiveRows, createState,
    EngineState.resting]) honce hhas (by simp [createState, EngineState.resting])

end Engine

namespace Fixture

/-- The rows of orders that have been submitted. -/
def pendingOrders (ids : List String) : Db where
  processedEvents := []
  lastEventId := none
  orders := ids.foldl
    (fun m id => m.set id { status := .PENDING, filledQuantity := 0, avgFillPrice := 0 })
    OrdMap.empty
  wallets := OrdMap.empty
  positions := OrdMap.empty
  fills := OrdMap.empty

/-- The user cancels an order and gives another price. -/
def missedCancel : List (EngineInputEvent × StreamId) :=
  numbered [user "a" 1000, place "a" "o1" .Bid .LIMIT 100 1 1 100,
    evt "cmd_cancel" (.orderCancel ⟨"a", "o1", .Bid, 99⟩)]

/-- A partial fill, and a cancellation that finds its order. -/
def cancelledRest : List (EngineInputEvent × StreamId) :=
  numbered [user "m" 1000, user "t" 1000, place "m" "o1" .Ask .LIMIT 100 2 1 200,
    place "t" "o2" .Bid .LIMIT 100 1 1 100, evt "cmd_cancel" (.orderCancel ⟨"m", "o1", .Ask, 100⟩)]

/-- The maker's fill of `0.6` steps is reported as one of a whole step. -/
def belowGrid : List (EngineInputEvent × StreamId) :=
  numbered [user "m" 1000, user "t" 1000, place "m" "o1" .Ask .LIMIT 100 1.4e-8 1 100,
    place "t" "o2" .Bid .LIMIT 100 0.6e-8 1 100]

end Fixture

namespace Engine

open Fixture in
theorem live_status_cancelledRest :
    LiveThroughout (pendingOrders ["o1", "o2"]) (createState MARKET) cancelledRest ↔
      Along advance (fun s x => KeepsLive s x.1) (createState MARKET) cancelledRest :=
  live_status MARKET (by decide +kernel) (by decide +kernel) (by decide +kernel)

open Fixture in
/-- The order rests, and its row says that it was rejected. -/
theorem missedCancel_rejected :
    RunOf engineInputEventSchema missedCancel ∧ (placedIds missedCancel).Nodup ∧
      (∀ id ∈ placedIds missedCancel, (pendingOrders ["o1"]).orders.has id = true) ∧
      (run (createState MARKET) missedCancel).1.resting.map RestingOrder.orderId = ["o1"] ∧
      (applyAll (pendingOrders ["o1"]) (run (createState MARKET) missedCancel).2).map
        (fun db => (db.orders.get? "o1").map OrderRow.status) = some (some .REJECTED) ∧
      ¬ LiveThroughout (pendingOrders ["o1"]) (createState MARKET) missedCancel := by
  have hrests : (run (createState MARKET) missedCancel).1.resting.map RestingOrder.orderId =
      ["o1"] := by decide +kernel
  have hstatus : (applyAll (pendingOrders ["o1"]) (run (createState MARKET) missedCancel).2).map
      (fun db => (db.orders.get? "o1").map OrderRow.status) = some (some .REJECTED) := by
    decide +kernel
  refine ⟨by decide +kernel, by decide +kernel, by decide +kernel, hrests, hstatus, ?_⟩
  intro hall
  obtain ⟨db', hdb, hlive⟩ := hall missedCancel (List.prefix_refl _)
  have hmem : "o1" ∈ (run (createState MARKET) missedCancel).1.resting.map RestingOrder.orderId := by
    rw [hrests]
    exact List.mem_cons_self
  obtain ⟨x, hx, hid⟩ := List.mem_map.mp hmem
  obtain ⟨row, hrow, hrowlive⟩ := hlive x hx
  rw [hid] at hrow
  rw [hdb, Option.map_some, hrow] at hstatus
  have hrejected : row.status = .REJECTED := Option.some.inj (Option.some.inj hstatus)
  rw [hrejected] at hrowlive
  cases hrowlive

open Fixture in
example : (run (createState MARKET) belowGrid).1.resting.map RestingOrder.orderId = ["o1"] ∧
    (applyAll (pendingOrders ["o1", "o2"]) (run (createState MARKET) belowGrid).2).map
      (fun db => (db.orders.get? "o1").map OrderRow.status) = some (some .FILLED) := by
  decide +kernel

end Engine

end Perps
