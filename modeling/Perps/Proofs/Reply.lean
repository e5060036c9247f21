import Perps.Backend.Client
import Perps.Proofs.OrderLifecycle

/-! The reply to a submitted order. The outputs of one command share its
correlation id, and the reports on the makers come before the report on the
order itself, so the waiter is answered about the caller's order exactly when
the order finds no maker and is not so small that it is reported as filled. -/

namespace Perps

open Lib

namespace Engine

/-- The types the order controller waits for. -/
def orderReplies : List EngineOutputEventType := [.orderAccepted, .orderRejected]

/-- What a status says of an order of which `total` has traded, in the state
after it. -/
structure StatusSays (o : PlaceOrder) (total : ℚ) (t : EngineState) (status : OrderStatus) :
    Prop where
  filled : status = .FILLED ↔ total = o.quantity
  opened : status = .OPEN ↔ o.orderType = .LIMIT ∧ total = 0
  part : status = .PARTIAL ↔ 0 < total ∧ total < o.quantity
  cancelled : status = .CANCELLED ↔ o.orderType = .MARKET ∧ total = 0
  -- the rest of a market order is given up, also where some of it traded
  rests : (∃ x ∈ t.resting, x.orderId = o.orderId) ↔
    status = .OPEN ∨ status = .PARTIAL ∧ o.orderType = .LIMIT
  left : ∀ x ∈ t.resting, x.orderId = o.orderId → RestsFrom o x ∧ x.remaining = o.quantity - total

/-- The event answers for the order, given what its command made of the state
and the outputs. -/
def AboutOrder (o : PlaceOrder) (r : EngineState × List EngineOutputEvent)
    (evt : EngineOutputEvent) : Prop :=
  let total := tradedQty o.orderId (trades (r.2.map EngineOutputEvent.payload))
  match evt.payload with
  | .orderAccepted a => a.orderId = o.orderId ∧ a.filledQuantity = total ∧
      a.remainingQuantity = o.quantity - total ∧ StatusSays o total r.1 a.status
  | .orderRejected a => a.orderId = o.orderId ∧ total = 0 ∧
      ∀ x ∈ r.1.resting, x.orderId ≠ o.orderId
  | _ => False

/-- The order meets a resting order when matching begins. -/
def FindsMaker (s : EngineState) (o : PlaceOrder) : Prop := OuterCond o (matchStart s o)

instance (s : EngineState) (o : PlaceOrder) : Decidable (FindsMaker s o) :=
  inferInstanceAs (Decidable (OuterCond o (matchStart s o)))

theorem findsMaker_iff {s : EngineState} (h : BookOK s) (o : PlaceOrder) :
    FindsMaker s o ↔ reached s o ≠ [] := by
  have hside := h.side (maker_side o.side)
  unfold FindsMaker reached fillsOf
  cases hl : levelsFor s (maker_side o.side) with
  | nil => exact iff_of_false (not_outerCond_nil o hl) (by simp [crossing, hits])
  | cons l ls =>
    rw [hl] at hside
    have hne := (hside.levels l List.mem_cons_self).nonempty
    rw [outerCond_iff o (m := matchStart s o) hl, crossing_cons]
    show o.quantity > 1e-9 ∧ _ ↔ _
    by_cases hc : crosses o l.price = true
    · rw [if_pos hc]
      cases hos : l.orders with
      | nil => exact absurd hos hne
      | cons x xs =>
        rw [List.cons_append, hits]
        by_cases hq : o.quantity > 1e-9 <;> simp [hq, hc]
    · simp [hc, hits]

/-- The first answer among the payloads of an output list. -/
def firstReply (ds : List DraftOutput) : Option DraftOutput :=
  ds.find? fun d => d.eventType ∈ orderReplies

theorem firstReply_append (xs ys : List DraftOutput) :
    firstReply (xs ++ ys) = (firstReply xs).or (firstReply ys) := List.find?_append

theorem firstReply_of_account {ds : List DraftOutput} (h : ∀ d ∈ ds, IsAccountDraft d) :
    firstReply ds = none := by
  refine List.find?_eq_none.mpr fun d hd => ?_
  rcases h d hd with ⟨b, rfl⟩ | ⟨p, rfl⟩ <;> simp [DraftOutput.eventType, orderReplies]

theorem firstReply_of_match {ds : List DraftOutput} (h : ∀ d ∈ ds, IsMatchDraft d) :
    firstReply ds = none := by
  refine List.find?_eq_none.mpr fun d hd => ?_
  rcases h d hd with ⟨b, rfl⟩ | ⟨p, rfl⟩ <;> simp [DraftOutput.eventType, orderReplies]

theorem firstReply_makers (ts : List (String × MakerTouched)) :
    firstReply (ts.map makerReport) = ts.head?.map makerReport := by
  cases ts with
  | nil => rfl
  | cons t ts => rfl

section Placed

variable {s : EngineState} {e : EngineInputEvent} {o : PlaceOrder}

/-- The makers are reported first. -/
theorem Accepted.firstReply (hacc : Accepted s e o) (id : StreamId) :
    firstReply ((process s e id).2.map EngineOutputEvent.payload) =
      (((matched s e.toEnvelopeMeta o).makerTouched.entries.head?).map makerReport).or
        (some (takerReport o (matched s e.toEnvelopeMeta o)
          (settleRemainder e.toEnvelopeMeta o (matched s e.toEnvelopeMeta o)).2.2)) := by
  obtain ⟨ds, hall, hdrafts⟩ := placeAccepted_drafts s e.toEnvelopeMeta o
  have hsettle : Engine.firstReply
      (settleRemainder e.toEnvelopeMeta o (matched s e.toEnvelopeMeta o)).2.1 = none := by
    have hm := firstReply_of_match (matched_drafts s e.toEnvelopeMeta o)
    rcases settleRemainder_drafts e.toEnvelopeMeta o (matched s e.toEnvelopeMeta o) with h | ⟨x, h⟩
    · rw [h, hm]
    · rw [h, firstReply_append, hm]
      rfl
  rw [hacc.payloads, hdrafts, firstReply_append, firstReply_append, firstReply_append, hsettle,
    firstReply_of_account hall, firstReply_makers, Option.none_or, Option.or_none]
  rfl

/-- A rejected order is answered with its rejection. -/
theorem firstReply_of_rejected (hp : e.payload = .orderPlace o) (hnot : ¬ Accepted s e o)
    (id : StreamId) {d : DraftOutput}
    (h : firstReply ((process s e id).2.map EngineOutputEvent.payload) = some d) :
    ∃ r, d = .orderRejected r ∧ r.orderId = o.orderId := by
  by_cases ha : alreadyApplied s e = true
  · rw [process_applied ha] at h
    cases h
  rw [process_payloads, reduce_of_new ha] at h
  unfold dispatch at h
  rw [hp] at h
  dsimp only at h
  rcases onPlaceOrder_cases s e.toEnvelopeMeta o with ⟨reason, hr⟩ | ⟨hr, hl, -⟩
  · rw [hr] at h
    exact ⟨_, (Option.some.inj h).symm, rfl⟩
  · exact absurd ⟨hp, ha, hr, hl⟩ hnot

/-- Without a maker the whole order is left. -/
theorem leftover_of_hits_nil {os : List RestingOrder} {r : ℚ} (h : hits os r = []) :
    leftover os r = r := by
  cases os with
  | nil => rfl
  | cons x xs =>
    refine leftover_of_le (fun hr => ?_) _
    rw [hits, if_pos hr] at h
    cases h

/-- Nothing trades of an order that finds no maker, and the book it leaves is
the old one with the order on it. -/
theorem Accepted.unmatched (hacc : Accepted s e o) (hbook : BookOK s) (hnone : reached s o = [])
    (id : StreamId) :
    (matched s e.toEnvelopeMeta o).remaining = o.quantity ∧
      tradedQty o.orderId (trades ((process s e id).2.map EngineOutputEvent.payload)) = 0 ∧
      ∀ x ∈ (process s e id).1.resting,
        x ∈ ownRest e.toEnvelopeMeta o (matched s e.toEnvelopeMeta o) ∨
          ∃ y ∈ s.resting, Reduced x y := by
  have hfills : fillsOf s o = [] := List.map_eq_nil_iff.mp hnone
  refine ⟨?_, ?_, fun x hx => ?_⟩
  · rw [matched_remaining]
    exact leftover_of_hits_nil hfills
  · rw [hacc.newTrades, hfills]
    rfl
  · rw [hacc.resting] at hx
    exact (List.mem_append.mp ((placed_resting hbook _ o).mem_iff.mp hx)).imp_right
      (matched_reduced hbook _ o)

/-- The status that an order is given that finds no maker. -/
theorem unmatched_status {m : Matching} (hrem : m.remaining = o.quantity) (hq : 1e-9 < o.quantity) :
    (settleRemainder e.toEnvelopeMeta o m).2.2 =
      if o.orderType = .LIMIT then .OPEN else .CANCELLED := by
  have hR := settleRemainder_cases e.toEnvelopeMeta o m
  have hfilled : ¬ q (o.quantity - m.remaining) > 0 := by
    rw [hrem, sub_self, q_zero]
    exact lt_irrefl 0
  generalize settleRemainder e.toEnvelopeMeta o m = r at hR
  cases hR with
  | rests ht _ => simp only [ht, if_true, if_neg hfilled]
  | refunded ht _ =>
    rw [ht]
    exact if_neg hfilled
  | filled hr => exact absurd (hrem ▸ hq) hr

/-- That status says what has become of the order. -/
theorem Accepted.unmatched_says (hacc : Accepted s e o) (hbook : BookOK s)
    (hnew : ∀ x ∈ s.resting, x.orderId ≠ o.orderId) (hnone : reached s o = [])
    (hq : 1e-9 < o.quantity) (id : StreamId) :
    StatusSays o 0 (process s e id).1 (if o.orderType = .LIMIT then .OPEN else .CANCELLED) := by
  obtain ⟨hrem, -, hrest⟩ := hacc.unmatched hbook hnone id
  have hown : ∀ x ∈ (process s e id).1.resting, x.orderId = o.orderId →
      x ∈ ownRest e.toEnvelopeMeta o (matched s e.toEnvelopeMeta o) := fun x hx hid =>
    (hrest x hx).resolve_right fun ⟨y, hy, hxy⟩ => hnew y hy (hxy.orderId.symm.trans hid)
  have hne : (0 : ℚ) ≠ o.quantity := by
    intro h
    rw [← h] at hq
    norm_num at hq
  cases ht : o.orderType with
  | LIMIT =>
    have hone : ownRest e.toEnvelopeMeta o (matched s e.toEnvelopeMeta o) =
        [restingOrder e.toEnvelopeMeta o (matched s e.toEnvelopeMeta o).remaining
          ((matched s e.toEnvelopeMeta o).state.seq + 1)] := if_pos ⟨ht, hrem ▸ hq⟩
    refine ⟨by simp [hne], by simp [ht], by simp, by simp [ht], iff_of_true ?_ (Or.inl rfl),
      fun x hx hid => ?_⟩
    · rw [hacc.resting]
      exact ⟨_, (placed_resting hbook _ o).mem_iff.mpr
        (List.mem_append_left _ (hone ▸ List.mem_singleton_self _)), rfl⟩
    · have hx := hown x hx hid
      rw [hone, List.mem_singleton] at hx
      rw [hx, sub_zero]
      exact ⟨⟨rfl, rfl, rfl, rfl, rfl, ht⟩, hrem⟩
  | MARKET =>
    have hnil : ownRest e.toEnvelopeMeta o (matched s e.toEnvelopeMeta o) = [] :=
      if_neg (by simp [ht])
    have hoff : ∀ x ∈ (process s e id).1.resting, x.orderId ≠ o.orderId := fun x hx hid =>
      List.not_mem_nil (hnil ▸ hown x hx hid)
    exact ⟨by simp [hne], by simp [ht], by simp, by simp [ht],
      iff_of_false (fun ⟨x, hx, hid⟩ => hoff x hx hid) (by simp),
      fun x hx hid => absurd hid (hoff x hx)⟩

/-- An order that finds no maker is reported on as it is. -/
theorem Accepted.aboutOrder (hacc : Accepted s e o) (hbook : BookOK s)
    (hnew : ∀ x ∈ s.resting, x.orderId ≠ o.orderId) (hnone : reached s o = [])
    (hq : 1e-9 < o.quantity) (id : StreamId) {evt : EngineOutputEvent}
    (hevt : evt.payload = takerReport o (matched s e.toEnvelopeMeta o)
      (settleRemainder e.toEnvelopeMeta o (matched s e.toEnvelopeMeta o)).2.2) :
    AboutOrder o (process s e id) evt := by
  obtain ⟨hrem, htotal, -⟩ := hacc.unmatched hbook hnone id
  unfold AboutOrder
  dsimp only
  rw [hevt, htotal]
  refine ⟨rfl, ?_, ?_, ?_⟩
  · show q (o.quantity - (matched s e.toEnvelopeMeta o).remaining) = 0
    rw [hrem, sub_self, q_zero]
  · show (matched s e.toEnvelopeMeta o).remaining = _
    rw [hrem, sub_zero]
  · show StatusSays o 0 _ (settleRemainder e.toEnvelopeMeta o (matched s e.toEnvelopeMeta o)).2.2
    rw [unmatched_status hrem hq]
    exact hacc.unmatched_says hbook hnew hnone hq id

/-- An order of at most 1e-9 is reported as filled although nothing of it
traded. -/
theorem Accepted.not_aboutOrder (hacc : Accepted s e o) (hbook : BookOK s)
    (he : engineInputEventSchema e) (hnone : reached s o = []) (hq : ¬ 1e-9 < o.quantity)
    (id : StreamId) {evt : EngineOutputEvent}
    (hevt : evt.payload = takerReport o (matched s e.toEnvelopeMeta o)
      (settleRemainder e.toEnvelopeMeta o (matched s e.toEnvelopeMeta o)).2.2) :
    ¬ AboutOrder o (process s e id) evt := by
  obtain ⟨hrem, htotal, -⟩ := hacc.unmatched hbook hnone id
  intro habout
  unfold AboutOrder at habout
  dsimp only at habout
  rw [hevt, htotal] at habout
  have hstatus : (settleRemainder e.toEnvelopeMeta o (matched s e.toEnvelopeMeta o)).2.2 =
      .FILLED := by
    have hR := settleRemainder_cases e.toEnvelopeMeta o (matched s e.toEnvelopeMeta o)
    generalize settleRemainder e.toEnvelopeMeta o (matched s e.toEnvelopeMeta o) = r at hR
    cases hR with
    | rests _ hr | refunded _ hr => exact absurd (hrem ▸ hr) hq
    | filled _ => rfl
  exact (hacc.valid he).2.2.1.ne (habout.2.2.2.filled.mp hstatus)

end Placed

theorem process_decodes {e : EngineInputEvent} (h : engineInputEventSchema e) (s : EngineState)
    (id : StreamId) : ∀ out ∈ (process s e id).2, decodeOutputEvent (some out) = some out := by
  intro out hout
  obtain ⟨hvalid, hversion⟩ := process_valid h s id out hout
  exact decodeWith_eq_some.mpr ⟨rfl, hversion.le, hvalid⟩

/-- A rejected order is answered for by its rejection. -/
theorem aboutOrder_of_rejected {s : EngineState} {e : EngineInputEvent} {o : PlaceOrder}
    (he : engineInputEventSchema e) (hp : e.payload = .orderPlace o) (hnot : ¬ Accepted s e o)
    (hnew : ∀ x ∈ s.resting, x.orderId ≠ o.orderId) (id : StreamId) {evt : EngineOutputEvent}
    (h : firstReply ((process s e id).2.map EngineOutputEvent.payload) = some evt.payload) :
    AboutOrder o (process s e id) evt := by
  have hnone : ∀ o', ¬ Accepted s e o' := fun o' hacc =>
    hnot (InputPayload.orderPlace.inj (hp.symm.trans hacc.payload) ▸ hacc)
  obtain ⟨a, ha, hid⟩ := firstReply_of_rejected hp hnot id h
  obtain ⟨gone, hperm⟩ := process_resting he hnone id
  unfold AboutOrder
  dsimp only
  rw [ha, trades_of_quiet (process_quiet hnone id)]
  exact ⟨hid, rfl, fun x hx => hnew x (hperm.mem_iff.mpr (List.mem_append_right _ hx))⟩

/-- When the first answer among the outputs of a placed order is about it. -/
theorem aboutOrder_iff {s : EngineState} {e : EngineInputEvent} {o : PlaceOrder} (hbook : BookOK s)
    (he : engineInputEventSchema e) (hp : e.payload = .orderPlace o)
    (hnew : ∀ x ∈ s.resting, x.orderId ≠ o.orderId) (id : StreamId) {evt : EngineOutputEvent}
    (h : firstReply ((process s e id).2.map EngineOutputEvent.payload) = some evt.payload) :
    AboutOrder o (process s e id) evt ↔
      (Accepted s e o → ¬ FindsMaker s o ∧ 1e-9 < o.quantity) := by
  by_cases hacc : Accepted s e o
  · rw [hacc.firstReply id] at h
    have hkeys := matched_keys s e.toEnvelopeMeta o
    simp only [hacc, forall_const, findsMaker_iff hbook, not_not]
    cases hentries : (matched s e.toEnvelopeMeta o).makerTouched.entries with
    | nil =>
      rw [hentries] at h
      have hpay := (Option.some.inj h).symm
      have hnone : reached s o = [] := by
        refine List.eq_nil_iff_forall_not_mem.mpr fun y hy => ?_
        have hkey := (hkeys y.orderId).mpr (List.mem_map_of_mem hy)
        simp [OrdMap.keys, hentries] at hkey
      constructor
      · intro habout
        refine ⟨hnone, ?_⟩
        by_contra hq
        exact hacc.not_aboutOrder hbook he hnone hq id hpay habout
      · exact fun hcond => hacc.aboutOrder hbook hnew hnone hcond.2 id hpay
    | cons t ts =>
      -- the first answer is the report on a maker, which rested before
      rw [hentries] at h
      obtain ⟨x, hx, hxt⟩ := List.mem_map.mp ((hkeys t.1).mp (by simp [OrdMap.keys, hentries]))
      refine iff_of_false (fun habout => ?_) fun hcond => ?_
      · unfold AboutOrder at habout
        dsimp only at habout
        rw [← Option.some.inj h] at habout
        exact hnew x (BookOK.resting_of_side s (crossing_subset (hits_mem hx)))
          (hxt.trans habout.1)
      · rw [hcond.1] at hx
        exact List.not_mem_nil hx
  · exact iff_of_true (aboutOrder_of_rejected he hp hacc hnew id h) fun hyes => absurd hyes hacc

open EngineClient in
/-- The reply to a submitted order is about that order, whatever the client and
other commands do in between, exactly if the order is rejected, or finds no
maker and is of more than 1e-9. -/
theorem reply_about_own_order {market : MarketConfig} {s : EngineState}
    (h : Reachable engineInputEventSchema market s) {cmd : CommandInput} {eventId : String} {ts : ℕ}
    {corr : String} {e : EngineInputEvent} (hbuild : buildEvent cmd eventId ts corr = some e)
    {o : PlaceOrder} (hp : cmd.payload = .orderPlace o)
    (hnew : ∀ x ∈ s.resting, x.orderId ≠ o.orderId) (id : StreamId) :
    (∀ c acts, Fresh corr c acts → heard corr acts <+: (process s e id).2.map some →
      ∀ evt, (corr, some evt) ∈ (c.runActions (.submitCommand corr orderReplies :: acts)).replies →
        AboutOrder o (process s e id) evt) ↔
      (Accepted s e o → ¬ FindsMaker s o ∧ 1e-9 < o.quantity) := by
  obtain ⟨he, hpayload, hown, hcorr⟩ := buildEvent_eq_some hbuild
  rw [hp] at hpayload
  have hbook := reachable_bookOK h
  have hdec := process_decodes he s id
  have hown : ∀ out ∈ (process s e id).2, out.correlationId = some corr := fun out hout =>
    (process_correlationId s e id out hout).trans hown
  have hfirst : Engine.firstReply ((process s e id).2.map EngineOutputEvent.payload) =
      (firstMatch orderReplies ((process s e id).2.map some)).map EngineOutputEvent.payload := by
    rw [firstMatch_outputs _ hdec]
    exact List.find?_map
  constructor
  · intro hall hacc
    -- an accepted order is answered, and the waiter does take the first answer
    obtain ⟨d, hd⟩ : ∃ d, Engine.firstReply ((process s e id).2.map EngineOutputEvent.payload) =
        some d := ⟨_, (hacc.firstReply id).trans (Option.or_some ..)⟩
    rw [hd] at hfirst
    obtain ⟨evt, hevt, rfl⟩ := Option.map_eq_some_iff.mp hfirst.symm
    rw [firstMatch_outputs _ hdec] at hevt
    have hmem := reply_of_outputs hcorr id
      (c := init.step (.submitCommand corr orderReplies)) (OrdMap.get?_set_self _ _ _) hdec hown
      hevt
    refine (aboutOrder_iff hbook he hpayload hnew id hd).mp ?_ hacc
    exact hall init _ ⟨rfl, by simp [init], by simp⟩ (by rw [heard_outputs id hown]) evt hmem
  · intro hcond c acts hfresh hheard evt hmem
    have hmatch := reply_eq_firstMatch hcorr hfresh orderReplies hmem
    obtain ⟨rest, hrest⟩ := hheard
    rw [← hrest, firstMatch_append, hmatch] at hfirst
    exact (aboutOrder_iff hbook he hpayload hnew id hfirst).mpr hcond

open Fixture EngineClient in
/-- A bid below the best ask. -/
theorem reply_about_own_order_resting :
    let s := (run (createState MARKET) (numbered
      [user "m" 1000000, user "t" 1000000, place "m" "a1" .Ask .LIMIT 100 2 1 200])).1
    let o : PlaceOrder := ⟨"t", "b1", .Bid, .LIMIT, 5, 99, 1, 495⟩
    let e : EngineInputEvent :=
      ⟨⟨"evt_1", 0, "api", 1, some "corr_1", none, some "cmd_b1"⟩, .orderPlace o⟩
    (∀ c acts, Fresh "corr_1" c acts → heard "corr_1" acts <+: (process s e ⟨4, 0⟩).2.map some →
      ∀ evt, ("corr_1", some evt) ∈
        (c.runActions (.submitCommand "corr_1" orderReplies :: acts)).replies →
          AboutOrder o (process s e ⟨4, 0⟩) evt) ↔
      (Accepted s e o → ¬ FindsMaker s o ∧ 1e-9 < o.quantity) :=
  have hbuild : buildEvent ⟨some "cmd_b1", .orderPlace ⟨"t", "b1", .Bid, .LIMIT, 5, 99, 1, 495⟩⟩
      "evt_1" 0 "corr_1" = some ⟨⟨"evt_1", 0, "api", 1, some "corr_1", none, some "cmd_b1"⟩,
        .orderPlace ⟨"t", "b1", .Bid, .LIMIT, 5, 99, 1, 495⟩⟩ := by decide +kernel
  reply_about_own_order (reachable_run .init (by decide +kernel)) hbuild rfl (by decide +kernel)
    ⟨4, 0⟩

open Fixture EngineClient in
/-- A bid of 5 that takes an ask of 2 is answered with the report on that ask:
filled, nothing remaining. -/
theorem reply_about_other_order :
    let s := (run (createState MARKET) (numbered
      [user "m" 1000000, user "t" 1000000, place "m" "a1" .Ask .LIMIT 100 2 1 200])).1
    let o : PlaceOrder := ⟨"t", "b1", .Bid, .LIMIT, 5, 100, 1, 500⟩
    let e : EngineInputEvent :=
      ⟨⟨"evt_1", 0, "api", 1, some "corr_1", none, some "cmd_b1"⟩, .orderPlace o⟩
    let r := process s e ⟨4, 0⟩
    let acts : List Action := r.2.map fun out => .message ⟨1, 0⟩ (some out)
    let evt : EngineOutputEvent :=
      ⟨⟨"evt_13", 0, "engine", 1, some "corr_1", some "evt_1", some "cmd_b1"⟩,
        .orderAccepted ⟨"a1", "m", .FILLED, 2, 0, 0⟩⟩
    Reachable engineInputEventSchema MARKET s ∧
      buildEvent ⟨some "cmd_b1", .orderPlace o⟩ "evt_1" 0 "corr_1" = some e ∧
      (∀ x ∈ s.resting, x.orderId ≠ o.orderId) ∧ Fresh "corr_1" EngineClient.init acts ∧
      heard "corr_1" acts <+: r.2.map some ∧
      ("corr_1", some evt) ∈
        (EngineClient.init.runActions (.submitCommand "corr_1" orderReplies :: acts)).replies ∧
      ¬ AboutOrder o r evt :=
  ⟨reachable_run .init (by decide +kernel), by decide +kernel, by decide +kernel,
    ⟨rfl, by simp [EngineClient.init], by simp⟩, by decide +kernel, by decide +kernel,
    fun h => absurd h.1 (by decide)⟩

end Engine

end Perps
