import Perps.Proofs.BookInvariant
import Perps.Lib.Feed

/-! The deltas as a feed of the aggregated book: whatever a command does to the
book, it drafts a delta for every price whose quantity it changes, and the delta
says the quantity that the command leaves there. -/

namespace Perps

open Lib Engine

/-! The aggregated book -/

/-- The quantity that rests at a price, if there is a level. -/
def quantityAt (levels : List PriceLevel) (price : ℚ) : Option ℚ :=
  (levels.find? fun l => l.price = price).map levelQuantity

section Quantity

theorem levelQuantity_eq (l : PriceLevel) :
    levelQuantity l = (l.orders.map RestingOrder.remaining).sum := by
  rw [levelQuantity, List.sum_eq_foldl, List.foldl_map]

theorem levelQuantity_pos {side : Side} {l : PriceLevel} (h : LevelOK side l) :
    0 < levelQuantity l := by
  rw [levelQuantity_eq]
  refine List.sum_pos _ (fun r hr => ?_) (by simpa using h.nonempty)
  obtain ⟨x, hx, rfl⟩ := List.mem_map.mp hr
  have : (0 : ℚ) < 1e-9 := by norm_num
  linarith [h.live x hx]

theorem quantityAt_cons_self (l : PriceLevel) (ls : List PriceLevel) :
    quantityAt (l :: ls) l.price = some (levelQuantity l) := by
  simp [quantityAt]

theorem quantityAt_cons_ne {price p : ℚ} (h : p ≠ price) (os : List RestingOrder)
    (ls : List PriceLevel) : quantityAt (⟨price, os⟩ :: ls) p = quantityAt ls p := by
  have hl : ¬ price = p := fun hp => h hp.symm
  simp [quantityAt, hl]

theorem quantityAt_append (ls ms : List PriceLevel) (p : ℚ) :
    quantityAt (ls ++ ms) p = (quantityAt ls p).or (quantityAt ms p) := by
  simp only [quantityAt, List.find?_append]
  cases ls.find? fun l => l.price = p <;> rfl

theorem quantityAt_eq_none {levels : List PriceLevel} {p : ℚ} (h : ∀ l ∈ levels, l.price ≠ p) :
    quantityAt levels p = none := by
  rw [quantityAt, Option.map_eq_none_iff, List.find?_eq_none]
  exact fun l hl hp => h l hl (of_decide_eq_true hp)

/-- The levels of a side have distinct prices. -/
theorem SideOK.price_ne {side : Side} {l : PriceLevel} {ls : List PriceLevel}
    (h : SideOK side (l :: ls)) : ∀ m ∈ ls, m.price ≠ l.price := by
  intro m hm hp
  have hbetter := (List.pairwise_cons.mp h.sorted).1 m hm
  rw [hp] at hbetter
  exact betterFirst_irrefl side l.price hbetter

theorem quantityAt_eq_some {side : Side} {levels : List PriceLevel} (h : SideOK side levels)
    (p v : ℚ) : quantityAt levels p = some v ↔ ∃ l ∈ levels, l.price = p ∧ levelQuantity l = v := by
  induction levels with
  | nil => simp [quantityAt]
  | cons l ls ih =>
    by_cases hp : p = l.price
    · subst hp
      rw [quantityAt_cons_self, Option.some.injEq]
      constructor
      · intro hv
        exact ⟨l, List.mem_cons_self, rfl, hv⟩
      · rintro ⟨m, hm, hmp, hv⟩
        rcases List.mem_cons.mp hm with rfl | hm
        · exact hv
        · exact absurd hmp (h.price_ne m hm)
    · rw [quantityAt_cons_ne hp, ih h.tail]
      constructor
      · rintro ⟨m, hm, hmp⟩
        exact ⟨m, List.mem_cons_of_mem _ hm, hmp⟩
      · rintro ⟨m, hm, hmp, hv⟩
        rcases List.mem_cons.mp hm with rfl | hm
        · exact absurd hmp.symm hp
        · exact ⟨m, hm, hmp, hv⟩

theorem SideOK.quantityAt_ne_zero {side : Side} {levels : List PriceLevel} (h : SideOK side levels)
    (p : ℚ) : quantityAt levels p ≠ some 0 := by
  intro hv
  obtain ⟨l, hl, -, hzero⟩ := (quantityAt_eq_some h p 0).mp hv
  exact (levelQuantity_pos (h.levels l hl)).ne' hzero

/-- Dropping orders of one level does not change the other quantities. -/
theorem quantityAt_setOrders {price p : ℚ} (hp : p ≠ price) (os : List RestingOrder)
    (levels : List PriceLevel) :
    quantityAt (removeEmptyLevel (setOrders price os levels) price) p = quantityAt levels p := by
  induction levels with
  | nil => rfl
  | cons l ls ih =>
    by_cases hl : l.price = price
    · have hpl : p ≠ l.price := hl ▸ hp
      rw [setOrders, if_pos hl, removeEmptyLevel, if_pos hl, quantityAt_cons_ne hpl]
      split_ifs
      · rfl
      · exact quantityAt_cons_ne hpl os ls
    · rw [setOrders, if_neg hl, removeEmptyLevel, if_neg hl]
      by_cases hpl : p = l.price
      · rw [hpl, quantityAt_cons_self, quantityAt_cons_self]
      · rw [quantityAt_cons_ne hpl, quantityAt_cons_ne hpl, ih]

/-- An order that comes to rest does not change the other quantities. -/
theorem Inserted.quantityAt {order : RestingOrder} {levels levels' : List PriceLevel}
    (h : Inserted order levels levels') {p : ℚ} (hp : p ≠ order.price) :
    quantityAt levels' p = quantityAt levels p := by
  cases h with
  | joined ls l ms hl =>
    have hpl : p ≠ l.price := hl ▸ hp
    rw [quantityAt_append, quantityAt_append, quantityAt_cons_ne hpl, quantityAt_cons_ne hpl]
  | spliced ls ms _ _ => rw [quantityAt_append, quantityAt_append, quantityAt_cons_ne hp]

end Quantity

/-! The client -/

/-- What a delta says about the quantity of its price. -/
def bookEntry : DraftOutput → Option ((Side × ℚ) × Option ℚ)
  | .orderBookDelta d =>
    some ((d.side, d.price), if d.newQuantity = 0 then none else some d.newQuantity)
  | _ => none

/-- The book of a client that follows the deltas. -/
def followBook (outs : List EngineOutputEvent) : OrdMap (Side × ℚ) ℚ :=
  applyFeed OrdMap.empty ((outs.map EngineOutputEvent.payload).filterMap bookEntry)

/-- The client's book is the aggregated book of the engine. -/
def Agrees (book : OrdMap (Side × ℚ) ℚ) (s : EngineState) : Prop :=
  ∀ side price, book.get? (side, price) = quantityAt (levelsFor s side) price

theorem Agrees.congr {book : OrdMap (Side × ℚ) ℚ} {s t : EngineState} (h : Agrees book s)
    (hlevels : ∀ side, levelsFor t side = levelsFor s side) : Agrees book t := by
  intro side price
  rw [hlevels]
  exact h side price

/-- A change of one quantity, and the entry for it. -/
theorem Agrees.entry {book : OrdMap (Side × ℚ) ℚ} {s t : EngineState} (h : Agrees book s)
    (side : Side) (price : ℚ)
    (hother : levelsFor t (maker_side side) = levelsFor s (maker_side side))
    (hown : ∀ p, p ≠ price → quantityAt (levelsFor t side) p = quantityAt (levelsFor s side) p) :
    Agrees (applyEntry book ((side, price), quantityAt (levelsFor t side) price)) t := by
  intro sd p
  rw [get?_applyEntry]
  split_ifs with hk
  · obtain ⟨rfl, rfl⟩ := Prod.mk.inj hk
    rfl
  · rw [h sd p]
    by_cases hsd : sd = side
    · subst hsd
      exact (hown p fun hp => hk (by rw [hp])).symm
    · have hmaker : sd = maker_side side := by
        revert hsd
        cases sd <;> cases side <;> decide
      rw [hmaker, hother]

namespace Engine

/-- The book of a client after more drafts. -/
def followed (book : OrdMap (Side × ℚ) ℚ) (outs : List DraftOutput) : OrdMap (Side × ℚ) ℚ :=
  applyFeed book (outs.filterMap bookEntry)

theorem followed_append (book : OrdMap (Side × ℚ) ℚ) (xs ys : List DraftOutput) :
    followed book (xs ++ ys) = followed (followed book xs) ys := by
  rw [followed, List.filterMap_append, applyFeed_append]
  rfl

theorem followed_of_none {outs : List DraftOutput} (h : ∀ d ∈ outs, bookEntry d = none)
    (book : OrdMap (Side × ℚ) ℚ) : followed book outs = book := by
  rw [followed, List.filterMap_eq_nil_iff.mpr h]
  rfl

theorem followed_singleton {d : DraftOutput} {x : (Side × ℚ) × Option ℚ} (h : bookEntry d = some x)
    (book : OrdMap (Side × ℚ) ℚ) : followed book [d] = applyEntry book x := by
  rw [followed, List.filterMap_cons_some h]
  rfl

/-- A delta that is drafted of a book in shape says what rests at its price. -/
theorem bookEntry_deltaDraft {s : EngineState} {side : Side} (h : SideOK side (levelsFor s side))
    (price : ℚ) :
    bookEntry (deltaDraft s side price) = some ((side, price), quantityAt (levelsFor s side) price) := by
  have hne := h.quantityAt_ne_zero price
  unfold quantityAt at hne ⊢
  unfold deltaDraft bookEntry
  cases hfind : (levelsFor s side).find? fun l => l.price = price with
  | none => simp
  | some l =>
    rw [hfind] at hne
    simpa using hne

section Match

variable (e : EnvelopeMeta) (o : PlaceOrder)

theorem settleAll_followed (m : Matching) (os : List RestingOrder) (book : OrdMap (Side × ℚ) ℚ) :
    followed book (settleAll e o m os).outs = followed book m.outs := by
  induction os generalizing m with
  | nil => rfl
  | cons x xs ih =>
    refine (ih (settleFill e o m x)).trans ?_
    rw [settleFill_outs, followed_append]
    exact followed_of_none (by simp [bookEntry]) _

/-- The levels of the maker side after one round of the outer loop. -/
theorem roundLevels_ok {l : PriceLevel} {more : List PriceLevel} {side : Side}
    (h : SideOK side (l :: more)) (r : ℚ) :
    SideOK side (if afterFills l.orders r = [] then more
      else { l with orders := afterFills l.orders r } :: more) := by
  refine h.thinned ?_
  split_ifs with he
  · exact .cons_right (Thinned.refl h.tail)
  · exact .cons ⟨rfl, he, afterFills_thinned (h.levels l List.mem_cons_self).live r⟩
      (Thinned.refl h.tail)

/-- A round of the outer loop changes one quantity, and drafts the delta for it. -/
theorem matchLevel_agrees {m : Matching} {book : OrdMap (Side × ℚ) ℚ} (hc : OuterCond o m)
    (hok : SideOK (maker_side o.side) (levelsFor m.state (maker_side o.side)))
    (h : Agrees (followed book m.outs) m.state) :
    SideOK (maker_side o.side) (levelsFor (matchLevel e o m).state (maker_side o.side)) ∧
      Agrees (followed book (matchLevel e o m).outs) (matchLevel e o m).state := by
  cases hlevels : levelsFor m.state (maker_side o.side) with
  | nil => exact absurd hc (not_outerCond_nil o hlevels)
  | cons l more =>
    rw [hlevels] at hok
    have hround := roundLevels_ok hok m.remaining
    rw [matchLevel_eq e o hlevels]
    have hfills (sd : Side) := settleAll_levels e o m ((hits l.orders m.remaining).map Prod.fst) sd
    have houts := settleAll_followed e o m ((hits l.orders m.remaining).map Prod.fst) book
    generalize settleAll e o m ((hits l.orders m.remaining).map Prod.fst) = k at hfills houts ⊢
    have hquantity : (if levelQuantity { l with orders := afterFills l.orders m.remaining } = 0
        then none else some (levelQuantity { l with orders := afterFills l.orders m.remaining })) =
          quantityAt (if afterFills l.orders m.remaining = [] then more
            else { l with orders := afterFills l.orders m.remaining } :: more) l.price := by
      split_ifs at hround ⊢ with hzero he he
      · exact (quantityAt_eq_none hok.price_ne).symm
      · exact absurd hzero (levelQuantity_pos (hround.levels _ List.mem_cons_self)).ne'
      · rw [he] at hzero
        exact absurd rfl hzero
      · exact (quantityAt_cons_self ⟨l.price, afterFills l.orders m.remaining⟩ more).symm
    generalize hlev : (if afterFills l.orders m.remaining = [] then more
      else { l with orders := afterFills l.orders m.remaining } :: more) = levels at hround hquantity ⊢
    have hown : levelsFor (k.withLevels o levels).state (maker_side o.side) = levels :=
      levelsFor_withLevels o k levels
    refine ⟨by rw [← hown] at hround; exact hround, ?_⟩
    have hagrees : Agrees (followed book k.outs) m.state := houts ▸ h
    have hmm : maker_side (maker_side o.side) = o.side := by cases o.side <;> rfl
    have hother : levelsFor (k.withLevels o levels).state (maker_side (maker_side o.side)) =
        levelsFor m.state (maker_side (maker_side o.side)) := by
      rw [hmm, Matching.withLevels, levelsFor_maker_setLevels, hfills]
    have hrest (p : ℚ) (hp : p ≠ l.price) :
        quantityAt (levelsFor (k.withLevels o levels).state (maker_side o.side)) p =
          quantityAt (levelsFor m.state (maker_side o.side)) p := by
      rw [hown, hlevels, quantityAt_cons_ne hp, ← hlev]
      split_ifs
      · rfl
      · exact quantityAt_cons_ne hp _ more
    have hentry := hagrees.entry (maker_side o.side) l.price hother hrest
    rw [hown, ← hquantity] at hentry
    show Agrees (followed book (k.outs ++ [_])) _
    rw [followed_append, followed_singleton (rfl : bookEntry (.orderBookDelta _) = some _)]
    exact hentry

theorem matchLoop_agrees {m : Matching} {book : OrdMap (Side × ℚ) ℚ}
    (hok : SideOK (maker_side o.side) (levelsFor m.state (maker_side o.side)))
    (h : Agrees (followed book m.outs) m.state) :
    Agrees (followed book (matchLoop e o m).outs) (matchLoop e o m).state :=
  (loop_invariant (I := fun m : Matching =>
    SideOK (maker_side o.side) (levelsFor m.state (maker_side o.side)) ∧
      Agrees (followed book m.outs) m.state)
    (fun _ hc hI => matchLevel_agrees e o hc hI.1 hI.2) _ ⟨hok, h⟩).2

end Match

theorem remainder_agrees {e : EnvelopeMeta} {o : PlaceOrder} {m : Matching}
    {book : OrdMap (Side × ℚ) ℚ} {r : EngineState × List DraftOutput × OrderStatus}
    (hm : BookOK m.state) (hr : BookOK r.1) (hrem : Remainder e o m r)
    (h : Agrees (followed book m.outs) m.state) : Agrees (followed book r.2.1) r.1 := by
  cases hrem with
  | rests ht hq =>
    rw [followed_append, followed_singleton (bookEntry_deltaDraft (hr.side o.side) o.price)]
    refine h.entry o.side o.price ?_ fun p hp => ?_
    · exact (insertResting_other _ _).trans (nextSeq_levels _ _)
    · have hins := insertResting_own (nextSeq m.state).1
        (restingOrder e o m.remaining (m.state.seq + 1))
      rw [nextSeq_levels] at hins
      exact (congrArg (quantityAt · p) hins).trans
        ((insertLevels_inserted (hm.side o.side).sorted).quantityAt hp)
  | refunded ht hq =>
    rw [release_eq]
    exact h.congr fun side => by cases side <;> rfl
  | filled hq => exact h

theorem bookEntry_account {ds : List DraftOutput} (h : ∀ d ∈ ds, IsAccountDraft d) :
    ∀ d ∈ ds, bookEntry d = none := by
  intro d hd
  rcases h d hd with ⟨b, rfl⟩ | ⟨p, rfl⟩ <;> rfl

theorem sameAccounts_levels {s t : EngineState} (h : SameAccounts s t) (side : Side) :
    levelsFor t side = levelsFor s side := by
  rw [h.core]
  cases side <;> rfl

theorem placed_agrees {s : EngineState} {book : OrdMap (Side × ℚ) ℚ} (hs : BookOK s)
    (h : Agrees book s) (e : EnvelopeMeta) {o : PlaceOrder} (ho : o.Valid) :
    Agrees (followed book (placeAccepted e o (lock s o.userId o.margin).1).2)
      (placeAccepted e o (lock s o.userId o.margin).1).1 := by
  obtain ⟨ds, hall, houts⟩ := placeAccepted_drafts s e o
  have hreports : ∀ d ∈ (matched s e o).makerTouched.entries.map makerReport, bookEntry d = none := by
    intro d hd
    obtain ⟨t, _, rfl⟩ := List.mem_map.mp hd
    rfl
  rw [houts, followed_append, followed_append, followed_append, followed_of_none hreports,
    followed_of_none (bookEntry_account hall), followed_of_none (by simp [takerReport, bookEntry])]
  have hstart : Agrees (followed book (matchStart (lock s o.userId o.margin).1 o).outs)
      (matchStart (lock s o.userId o.margin).1 o).state :=
    h.congr fun side => lock_levels s _ _ side
  have hside : SideOK (maker_side o.side) (levelsFor (matchStart (lock s o.userId o.margin).1 o).state
      (maker_side o.side)) := by
    simp only [matchStart, lock_levels]
    exact hs.side _
  have hplaced : Agrees (followed book (settleRemainder e o (matched s e o)).2.1)
      (placedState s e o) :=
    remainder_agrees (bookOK_matched hs e o) (bookOK_placed hs e ho)
      (settleRemainder_cases e o (matched s e o)) (matchLoop_agrees e o hside hstart)
  exact hplaced.congr (sameAccounts_levels (placeAccepted_same e o _))

theorem cancelled_agrees {s : EngineState} {book : OrdMap (Side × ℚ) ℚ} (hs : BookOK s)
    (h : Agrees book s) {c : CancelOrder} {level : PriceLevel} {removed : RestingOrder}
    (hlevel : (levelsFor s c.side).find? (fun l => l.price = c.price) = some level)
    {b : BalanceUpdated} {x : OrderCancelled} :
    let t := (release (withoutOrder s c level) c.userId removed.margin).1
    Agrees (followed book [deltaDraft t c.side c.price, .balanceUpdated b, .orderCancelled x]) t := by
  intro t
  have hok := bookOK_cancelled hs hlevel
  have hreleased (side : Side) : levelsFor t side = levelsFor (withoutOrder s c level) side := by
    show levelsFor (release (withoutOrder s c level) c.userId removed.margin).1 side = _
    rw [release_eq]
    cases side <;> rfl
  have hside := hok.side c.side
  rw [← hreleased] at hside
  show Agrees (followed book ([deltaDraft t c.side c.price] ++ [_, _])) _
  rw [followed_append, followed_singleton (bookEntry_deltaDraft hside c.price),
    followed_of_none (by simp [bookEntry])]
  refine h.entry c.side c.price ?_ fun p hp => ?_
  · rw [hreleased, withoutOrder]
    cases c.side <;> rfl
  · rw [hreleased, withoutOrder, levelsFor_setLevels]
    exact quantityAt_setOrders hp _ _

/-- Neither a tick nor the liquidations it causes touch the book. -/
theorem swept_agrees {s : EngineState} {book : OrdMap (Side × ℚ) ℚ} (h : Agrees book s)
    (p : IndexPriceUpdated) (liqs : List PositionLiquidated) :
    Agrees (followed book (liqs.flatMap fun l =>
      .positionLiquidated l :: accountEvents (markedState s p) l.userId))
        ((liqs.map PositionLiquidated.userId).foldl drafted (markedState s p)) := by
  rw [followed_of_none]
  · refine Agrees.congr ?_ (sameAccounts_levels (foldl_drafted_same _ _))
    refine h.congr fun side => ?_
    rw [markedState, liquidationSweep_core]
    cases side <;> rfl
  · intro d hd
    obtain ⟨l, -, hd⟩ := List.mem_flatMap.mp hd
    simp only [accountEvents, List.mem_cons, List.not_mem_nil, or_false] at hd
    rcases hd with rfl | rfl | rfl <;> rfl

theorem credit_levels (s : EngineState) (u : String) (amount : ℚ) (side : Side) :
    levelsFor (credit s u amount) side = levelsFor s side := by
  rw [credit_eq]
  cases side <;> rfl

theorem onUserCreated_levels (s : EngineState) (p : UserCreated) (side : Side) :
    levelsFor (onUserCreated s p).1 side = levelsFor s side := by
  by_cases ha : 0 < p.openingBalance
  · exact (sameAccounts_levels (onUserCreated_credits s p.userId ha) side).trans
      (credit_levels s p.userId p.openingBalance side)
  · have hsame := (ensureBalance_same s p.userId).trans (balanceDraft_same _ p.userId)
    unfold onUserCreated
    dsimp only
    rw [if_neg ha]
    exact sameAccounts_levels hsame side

theorem dispatch_agrees {s : EngineState} {book : OrdMap (Side × ℚ) ℚ} (hs : BookOK s)
    (h : Agrees book s) {e : EngineInputEvent} (he : engineInputEventSchema e) :
    Agrees (followed book (dispatch s e).2) (dispatch s e).1 := by
  have hv := he.2
  have hout := dispatch_outcome s e
  generalize dispatch s e = r at hout
  cases hout with
  | opened p =>
    rw [followed_of_none (by simp [bookEntry])]
    exact h.congr (onUserCreated_levels s p)
  | deposited p =>
    rw [followed_of_none (by simp [bookEntry])]
    exact (h.congr (credit_levels s p.userId p.amount)).congr
      (sameAccounts_levels (onBalanceDeposited_credits s p.userId p.amount))
  | rejected =>
    rw [followed_of_none (by simp [rejectPlace, bookEntry])]
    exact h
  | placed o hp =>
    rw [hp] at hv
    exact placed_agrees hs h e.toEnvelopeMeta hv
  | missed =>
    rw [followed_of_none (by simp [bookEntry])]
    exact h
  | cancelled c hp level removed ht hlevel => exact cancelled_agrees hs h hlevel
  | stale => exact h
  | swept p => exact swept_agrees h p _

/-- Following the deltas of one event keeps a client's book up to date. -/
theorem process_agrees {s : EngineState} {book : OrdMap (Side × ℚ) ℚ} (hs : BookOK s)
    (h : Agrees book s) {e : EngineInputEvent} (he : engineInputEventSchema e) (id : StreamId) :
    Agrees (followed book ((process s e id).2.map EngineOutputEvent.payload)) (process s e id).1 := by
  by_cases ha : alreadyApplied s e = true
  · rw [process_applied ha]
    exact h.congr fun side => by cases side <;> rfl
  · rw [process_payloads, reduce_of_new ha]
    have hcore := process_new ha id
    refine (dispatch_agrees hs h he).congr fun side => ?_
    cases side
    · exact hcore.bids
    · exact hcore.asks

theorem run_agrees {s : EngineState} {book : OrdMap (Side × ℚ) ℚ} (hs : BookOK s)
    (h : Agrees book s) {evs : List (EngineInputEvent × StreamId)}
    (hevs : RunOf engineInputEventSchema evs) :
    Agrees (followed book ((run s evs).2.map EngineOutputEvent.payload)) (run s evs).1 := by
  induction evs generalizing s book with
  | nil => exact h
  | cons x xs ih =>
    have hx := hevs x List.mem_cons_self
    have hrest := ih (bookOK_process hs hx x.2) (process_agrees hs h hx x.2)
      fun y hy => hevs y (List.mem_cons_of_mem _ hy)
    show Agrees (followed book (((process s x.1 x.2).2 ++ _).map EngineOutputEvent.payload)) _
    rw [List.map_append, followed_append]
    exact hrest

/-- The entries of one side of a client's book. -/
def sideOf (book : OrdMap (Side × ℚ) ℚ) (side : Side) : List (ℚ × ℚ) :=
  (book.entries.filter fun x => x.1.1 = side).map fun x => (x.1.2, x.2)

theorem sideOf_perm {book : OrdMap (Side × ℚ) ℚ} {s : EngineState} (h : Agrees book s)
    {side : Side} (hok : SideOK side (levelsFor s side)) :
    (sideOf book side).Perm ((levelsFor s side).map fun l => (l.price, levelQuantity l)) := by
  have hprices : ((levelsFor s side).map PriceLevel.price).Nodup := by
    refine List.Pairwise.map _ (fun l m hlm hp => ?_) hok.sorted
    rw [hp] at hlm
    exact betterFirst_irrefl side m.price hlm
  have hleft : (sideOf book side).Nodup := by
    refine List.Nodup.map_on ?_ (book.nodup.of_map.filter _)
    rintro ⟨⟨sd, p⟩, v⟩ hx ⟨⟨sd', p'⟩, v'⟩ hy hxy
    have hsd := of_decide_eq_true (List.mem_filter.mp hx).2
    have hsd' := of_decide_eq_true (List.mem_filter.mp hy).2
    simp only [Prod.mk.injEq] at hxy hsd hsd' ⊢
    exact ⟨⟨hsd.trans hsd'.symm, hxy.1⟩, hxy.2⟩
  have hright : ((levelsFor s side).map fun l => (l.price, levelQuantity l)).Nodup := by
    refine List.Nodup.of_map Prod.fst ?_
    rw [List.map_map]
    exact hprices
  rw [List.perm_ext_iff_of_nodup hleft hright]
  rintro ⟨p, v⟩
  have hentry : (p, v) ∈ sideOf book side ↔ ((side, p), v) ∈ book.entries := by
    simp only [sideOf, List.mem_map, List.mem_filter, decide_eq_true_eq]
    constructor
    · rintro ⟨⟨⟨sd, p'⟩, v'⟩, ⟨hmem, hsd⟩, heq⟩
      obtain ⟨rfl, rfl⟩ := Prod.mk.inj heq
      rwa [← hsd]
    · intro hmem
      exact ⟨_, ⟨hmem, rfl⟩, rfl⟩
  rw [hentry, OrdMap.mem_entries_iff, h, quantityAt_eq_some hok]
  simp [List.mem_map]

/-- A client that follows the deltas of a run holds the aggregated book: on each
side the levels of the engine, each with the sum of what remains of its orders. -/
structure Reproduces (book : OrdMap (Side × ℚ) ℚ) (s : EngineState) : Prop where
  levels : ∀ side price quantity, book.get? (side, price) = some quantity ↔
    ∃ l ∈ levelsFor s side, l.price = price ∧ (l.orders.map RestingOrder.remaining).sum = quantity
  bids : ∀ n, s.bids.length ≤ n → (sideOf book .Bid).Perm (Perps.snapshot s n).bids
  asks : ∀ n, s.asks.length ≤ n → (sideOf book .Ask).Perm (Perps.snapshot s n).asks

/-- The delta stream reproduces the book. -/
theorem deltas_reproduce_book (market : MarketConfig) {evs : List (EngineInputEvent × StreamId)}
    (hevs : RunOf engineInputEventSchema evs) :
    Reproduces (followBook (run (createState market) evs).2) (run (createState market) evs).1 := by
  have hok := reachable_bookOK (reachable_run (@Reachable.init engineInputEventSchema market) hevs)
  have hstart : Agrees OrdMap.empty (createState market) := by
    intro side price
    cases side <;> rfl
  have h : Agrees (followBook (run (createState market) evs).2) (run (createState market) evs).1 :=
    run_agrees (bookOK_createState market) hstart hevs
  refine ⟨fun side price quantity => ?_, fun n hn => ?_, fun n hn => ?_⟩
  · rw [h, quantityAt_eq_some (hok.side side)]
    simp only [levelQuantity_eq]
  · rw [Perps.snapshot, List.take_of_length_le hn]
    exact sideOf_perm h (hok.side .Bid)
  · rw [Perps.snapshot, List.take_of_length_le hn]
    exact sideOf_perm h (hok.side .Ask)

open Fixture in
/-- A taker that empties one level, takes part of the next and comes to rest on
its own side, and a cancellation. -/
theorem deltas_reproduce_book_sweep :
    Reproduces (followBook (run (createState MARKET) (numbered
      [user "m" 1000000, user "t" 1000000, place "m" "a1" .Ask .LIMIT 100 2 1 200,
        place "m" "a2" .Ask .LIMIT 101 4 1 404, place "t" "b1" .Bid .LIMIT 100 3 1 300,
        place "t" "b2" .Bid .LIMIT 101 2 1 202,
        evt "cmd_cancel" (.orderCancel ⟨"t", "b1", .Bid, 100⟩)])).2)
      (run (createState MARKET) (numbered
      [user "m" 1000000, user "t" 1000000, place "m" "a1" .Ask .LIMIT 100 2 1 200,
        place "m" "a2" .Ask .LIMIT 101 4 1 404, place "t" "b1" .Bid .LIMIT 100 3 1 300,
        place "t" "b2" .Bid .LIMIT 101 2 1 202,
        evt "cmd_cancel" (.orderCancel ⟨"t", "b1", .Bid, 100⟩)])).1 :=
  deltas_reproduce_book MARKET (by decide +kernel)

end Engine

end Perps
