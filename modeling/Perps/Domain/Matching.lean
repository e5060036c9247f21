import Perps.Domain.Accounts
import Perps.Domain.Engine

/-! The matching loops in closed form. `hits` lists the fills of a taker against
a queue of makers, `afterFills` what they leave of the queue, `sweepLevels` what
they leave of the levels. `matchLoop_spec` says that the nested loops settle
exactly these fills, one after the other, and leave exactly these levels. -/

namespace Perps

open Lib Engine

section Levels

variable (state : EngineState) (side : Side) (levels levels' : List PriceLevel)

@[simp] theorem levelsFor_setLevels : levelsFor (setLevels state side levels) side = levels := by
  cases side <;> rfl

@[simp] theorem levelsFor_maker_setLevels :
    levelsFor (setLevels state (maker_side side) levels) side = levelsFor state side := by
  cases side <;> rfl

@[simp] theorem setLevels_setLevels :
    setLevels (setLevels state side levels) side levels' = setLevels state side levels' := by
  cases side <;> rfl

@[simp] theorem setLevels_levelsFor : setLevels state side (levelsFor state side) = state := by
  cases side <;> rfl

theorem applyFill_setLevels (userId : String) (s : Side) (price f fm lev : ℚ) :
    applyFill (setLevels state side levels) userId s price f fm lev =
      setLevels (applyFill state userId s price f fm lev) side levels := by
  cases side <;> simp only [applyFill_eq] <;> rfl

end Levels

namespace Engine

section Closed

/-- The fills of a quantity `r` against a queue, in order. -/
def hits : List RestingOrder → ℚ → List (RestingOrder × ℚ)
  | [], _ => []
  | maker :: rest, r =>
    if r > 1e-9 then (maker, min r maker.remaining) :: hits rest (q (r - min r maker.remaining))
    else []

/-- The quantity that is left of `r` after its fills. -/
def leftover : List RestingOrder → ℚ → ℚ
  | [], r => r
  | maker :: rest, r => if r > 1e-9 then leftover rest (q (r - min r maker.remaining)) else r

/-- What the fills leave of the queue. -/
def afterFills : List RestingOrder → ℚ → List RestingOrder
  | [], _ => []
  | maker :: rest, r =>
    if r > 1e-9 then
      shiftFilled (fillMaker maker (min r maker.remaining))
        (afterFills rest (q (r - min r maker.remaining)))
    else maker :: rest

/-- The queue the taker can trade with: the orders of the leading levels it
crosses. -/
def crossing (o : PlaceOrder) (levels : List PriceLevel) : List RestingOrder :=
  (levels.takeWhile fun l => crosses o l.price).flatMap PriceLevel.orders

/-- What the fills leave of the levels. -/
def sweepLevels (o : PlaceOrder) : List PriceLevel → ℚ → List PriceLevel
  | [], _ => []
  | l :: ls, r =>
    if r > 1e-9 ∧ crosses o l.price then
      if afterFills l.orders r = [] then sweepLevels o ls (leftover l.orders r)
      else { l with orders := afterFills l.orders r } :: ls
    else l :: ls

theorem hits_of_le {r : ℚ} (h : ¬ r > 1e-9) (os : List RestingOrder) : hits os r = [] := by
  cases os with
  | nil => rfl
  | cons maker rest => rw [hits, if_neg h]

theorem leftover_of_le {r : ℚ} (h : ¬ r > 1e-9) (os : List RestingOrder) : leftover os r = r := by
  cases os with
  | nil => rfl
  | cons maker rest => rw [leftover, if_neg h]

theorem afterFills_of_le {r : ℚ} (h : ¬ r > 1e-9) (os : List RestingOrder) :
    afterFills os r = os := by
  cases os with
  | nil => rfl
  | cons maker rest => rw [afterFills, if_neg h]

theorem hits_append (xs ys : List RestingOrder) (r : ℚ) :
    hits (xs ++ ys) r = hits xs r ++ hits ys (leftover xs r) := by
  induction xs generalizing r with
  | nil => rfl
  | cons x xs ih =>
    simp only [List.cons_append, hits, leftover]
    split_ifs with h
    · rw [ih, List.cons_append]
    · rw [hits_of_le h, List.nil_append]

/-- A maker that a fill does not exhaust has taken all of the quantity. -/
theorem exhausted_or_done (maker : RestingOrder) (r : ℚ) :
    (fillMaker maker (min r maker.remaining)).remaining ≤ 1e-9 ∨
      q (r - min r maker.remaining) = 0 := by
  rcases min_choice r maker.remaining with h | h
  · right
    rw [h, sub_self, q_zero]
  · left
    show q (maker.remaining - min r maker.remaining) ≤ 1e-9
    rw [h, sub_self, q_zero]
    norm_num

theorem leftover_of_afterFills_ne_nil {os : List RestingOrder} {r : ℚ}
    (h : afterFills os r ≠ []) : ¬ leftover os r > 1e-9 := by
  induction os generalizing r with
  | nil => exact absurd rfl h
  | cons maker rest ih =>
    rw [leftover]
    split_ifs with hr
    · rw [afterFills, if_pos hr] at h
      rcases exhausted_or_done maker r with he | h0
      · rw [shiftFilled, if_pos he] at h
        exact ih h
      · rw [h0, leftover_of_le (by norm_num)]
        norm_num
    · exact hr

end Closed

section Settle

variable (e : EnvelopeMeta) (o : PlaceOrder)

/-- Settle fills against the makers `os`, one after the other. -/
def settleAll (m : Matching) (os : List RestingOrder) : Matching := os.foldl (settleFill e o) m

/-- Write the levels of the maker side. -/
def Matching.withLevels (m : Matching) (levels : List PriceLevel) : Matching :=
  { m with state := setLevels m.state (maker_side o.side) levels }

/-- The state after both legs of a fill. -/
def filledLegs (m : Matching) (maker : RestingOrder) : EngineState :=
  applyFill (applyFill m.state maker.userId maker.side maker.price (min m.remaining maker.remaining)
    (makerFillMargin maker (min m.remaining maker.remaining)) maker.leverage)
    o.userId o.side maker.price (min m.remaining maker.remaining)
    (takerFillMargin o (min m.remaining maker.remaining)) o.leverage

theorem settleFill_state (m : Matching) (maker : RestingOrder) : (settleFill e o m maker).state =
    (nextSeq { filledLegs o m maker with lastTradePrice := maker.price }).1 := rfl

theorem settleFill_withLevels (m : Matching) (levels : List PriceLevel) (maker : RestingOrder) :
    settleFill e o (m.withLevels o levels) maker = (settleFill e o m maker).withLevels o levels := by
  simp only [settleFill, Matching.withLevels, applyFill_setLevels, nextSeq]
  cases o.side <;> rfl

theorem settleAll_withLevels (m : Matching) (levels : List PriceLevel) (os : List RestingOrder) :
    settleAll e o (m.withLevels o levels) os = (settleAll e o m os).withLevels o levels := by
  induction os generalizing m with
  | nil => rfl
  | cons x xs ih =>
    simp only [settleAll, List.foldl_cons] at ih ⊢
    rw [settleFill_withLevels, ih]

theorem settleFill_remaining (m : Matching) (maker : RestingOrder) :
    (settleFill e o m maker).remaining = q (m.remaining - min m.remaining maker.remaining) := rfl

theorem settleFill_filledNotional (m : Matching) (maker : RestingOrder) :
    (settleFill e o m maker).filledNotional =
      q (m.filledNotional + maker.price * min m.remaining maker.remaining) := rfl

theorem settleFill_affected (m : Matching) (maker : RestingOrder) :
    (settleFill e o m maker).affected = addUser m.affected maker.userId := rfl

theorem settleFill_touched (m : Matching) (maker : RestingOrder) :
    (settleFill e o m maker).makerTouched =
      let mt := (m.makerTouched.get? maker.orderId).getD
        { restingQty := maker.quantity, filled := 0, userId := maker.userId }
      m.makerTouched.set maker.orderId
        { mt with filled := q (mt.filled + min m.remaining maker.remaining) } := rfl

theorem settleAll_remaining (m : Matching) (os : List RestingOrder) :
    (settleAll e o m ((hits os m.remaining).map Prod.fst)).remaining = leftover os m.remaining := by
  induction os generalizing m with
  | nil => rfl
  | cons maker rest ih =>
    rw [hits, leftover]
    split_ifs with h
    · rw [← settleFill_remaining e o, ← ih]
      rfl
    · rfl

theorem levelsFor_withLevels (m : Matching) (levels : List PriceLevel) :
    levelsFor (m.withLevels o levels).state (maker_side o.side) = levels :=
  levelsFor_setLevels _ _ _

theorem withLevels_withLevels (m : Matching) (levels levels' : List PriceLevel) :
    (m.withLevels o levels).withLevels o levels' = m.withLevels o levels' := by
  simp only [Matching.withLevels, setLevels_setLevels]

theorem withLevels_self {m : Matching} {levels : List PriceLevel}
    (h : levelsFor m.state (maker_side o.side) = levels) : m.withLevels o levels = m := by
  subst h
  simp only [Matching.withLevels, setLevels_levelsFor]

theorem innerCond_iff {m : Matching} {price : ℚ} {os : List RestingOrder} {more : List PriceLevel}
    (h : levelsFor m.state (maker_side o.side) = ⟨price, os⟩ :: more) :
    InnerCond o m ↔ m.remaining > 1e-9 ∧ os ≠ [] := by
  unfold InnerCond headOrders
  rw [h]

theorem matchHead_eq {m : Matching} {price : ℚ} {maker : RestingOrder} {rest : List RestingOrder}
    {more : List PriceLevel}
    (h : levelsFor m.state (maker_side o.side) = ⟨price, maker :: rest⟩ :: more) :
    matchHead e o m = (settleFill e o m maker).withLevels o
      (⟨price, shiftFilled (fillMaker maker (min m.remaining maker.remaining)) rest⟩ :: more) := by
  unfold matchHead
  rw [h]
  rfl

/-- The inner loop settles the fills against one level. -/
theorem inner_spec {m : Matching} {price : ℚ} {os : List RestingOrder} {more : List PriceLevel}
    (h : levelsFor m.state (maker_side o.side) = ⟨price, os⟩ :: more) {n : ℕ}
    (hn : os.length < n) :
    loop (InnerCond o) (matchHead e o) n m =
      (settleAll e o m ((hits os m.remaining).map Prod.fst)).withLevels o
        (⟨price, afterFills os m.remaining⟩ :: more) := by
  induction os generalizing m n with
  | nil =>
    rw [loop_of_not _ _ (by rw [innerCond_iff o h]; simp)]
    exact (withLevels_self o h).symm
  | cons maker rest ih =>
    obtain ⟨n, rfl⟩ : ∃ k, n = k + 1 := ⟨n - 1, by omega⟩
    rw [List.length_cons] at hn
    by_cases hr : m.remaining > 1e-9
    · rw [loop_of_cond _ _ ((innerCond_iff o h).mpr ⟨hr, List.cons_ne_nil _ _⟩),
        matchHead_eq e o h, hits, afterFills, if_pos hr, if_pos hr]
      rcases exhausted_or_done maker m.remaining with he | h0
      · rw [shiftFilled, shiftFilled, if_pos he, if_pos he,
          ih (levelsFor_withLevels o _ _) (by omega), settleAll_withLevels, withLevels_withLevels]
        rfl
      · -- the taker is done, and the maker stays at the head of its level
        have hrem : ¬ ((settleFill e o m maker).withLevels o
            (⟨price, shiftFilled (fillMaker maker (min m.remaining maker.remaining)) rest⟩ ::
              more)).remaining > 1e-9 := by
          show ¬ q (m.remaining - min m.remaining maker.remaining) > 1e-9
          rw [h0]
          norm_num
        rw [loop_of_not _ _ (fun hc => hrem hc.1), h0, hits_of_le (by norm_num),
          afterFills_of_le (by norm_num)]
        rfl
    · rw [loop_of_not _ _ (fun hc => hr hc.1), hits_of_le hr, afterFills_of_le hr]
      exact (withLevels_self o h).symm

/-- The inner loop ends by its own condition. -/
theorem inner_exit {m : Matching} {l : PriceLevel} {more : List PriceLevel}
    (h : levelsFor m.state (maker_side o.side) = l :: more) {n : ℕ} (hn : l.orders.length < n) :
    ¬ InnerCond o (loop (InnerCond o) (matchHead e o) n m) := by
  rw [inner_spec e o h hn, innerCond_iff o (levelsFor_withLevels o _ _)]
  rintro ⟨hr, hne⟩
  refine leftover_of_afterFills_ne_nil hne ?_
  rwa [← settleAll_remaining e o]

theorem outerCond_iff {m : Matching} {l : PriceLevel} {more : List PriceLevel}
    (h : levelsFor m.state (maker_side o.side) = l :: more) :
    OuterCond o m ↔ m.remaining > 1e-9 ∧ crosses o l.price = true := by
  unfold OuterCond
  rw [h]
  simp

theorem not_outerCond_nil {m : Matching} (h : levelsFor m.state (maker_side o.side) = []) :
    ¬ OuterCond o m := by
  unfold OuterCond
  rw [h]
  simp

theorem removeEmptyLevel_head (l : PriceLevel) (more : List PriceLevel) :
    removeEmptyLevel (l :: more) l.price = if l.orders = [] then more else l :: more := by
  rw [removeEmptyLevel, if_pos rfl]

def Matching.push (m : Matching) (d : DraftOutput) : Matching := { m with outs := m.outs ++ [d] }

/-- One round of the outer loop settles the fills against the best level, and
removes the level if they empty it. -/
theorem matchLevel_eq {m : Matching} {l : PriceLevel} {more : List PriceLevel}
    (h : levelsFor m.state (maker_side o.side) = l :: more) :
    matchLevel e o m =
      ((settleAll e o m ((hits l.orders m.remaining).map Prod.fst)).withLevels o
        (if afterFills l.orders m.remaining = [] then more
          else { l with orders := afterFills l.orders m.remaining } :: more)).push
      (.orderBookDelta
        { symbol := (settleAll e o m ((hits l.orders m.remaining).map Prod.fst)).state.market.symbol
          side := maker_side o.side
          price := l.price
          newQuantity := levelQuantity { l with orders := afterFills l.orders m.remaining } }) := by
  have hspec := inner_spec e o h (Nat.lt_succ_self l.orders.length)
  unfold matchLevel
  rw [h]
  dsimp only
  rw [hspec, levelsFor_withLevels, deltaDraft, levelsFor_withLevels]
  have hfind (os : List RestingOrder) :
      ((⟨l.price, os⟩ : PriceLevel) :: more).find? (fun x => x.price = l.price) =
        some ⟨l.price, os⟩ := by simp
  have hrem := removeEmptyLevel_head ⟨l.price, afterFills l.orders m.remaining⟩ more
  dsimp only at hrem
  rw [hfind, hrem]
  simp only [Matching.withLevels, Matching.push, setLevels_setLevels]
  cases o.side <;> rfl

/-- The trades among the drafts. -/
def trades (outs : List DraftOutput) : List TradeExecuted :=
  outs.filterMap fun
    | .tradeExecuted t => some t
    | _ => none

/-- `m` and `n` differ at most in the deltas among their drafts. -/
structure UpToDeltas (m n : Matching) : Prop where
  state : m.state = n.state
  remaining : m.remaining = n.remaining
  filledNotional : m.filledNotional = n.filledNotional
  makerTouched : m.makerTouched = n.makerTouched
  affected : m.affected = n.affected
  trades : trades m.outs = trades n.outs

theorem UpToDeltas.refl (m : Matching) : UpToDeltas m m := ⟨rfl, rfl, rfl, rfl, rfl, rfl⟩

theorem UpToDeltas.trans {m n k : Matching} (h : UpToDeltas m n) (h' : UpToDeltas n k) :
    UpToDeltas m k :=
  ⟨h.state.trans h'.state, h.remaining.trans h'.remaining,
    h.filledNotional.trans h'.filledNotional, h.makerTouched.trans h'.makerTouched,
    h.affected.trans h'.affected, h.trades.trans h'.trades⟩

theorem UpToDeltas.push (m : Matching) (d : OrderBookDelta) :
    UpToDeltas (m.push (.orderBookDelta d)) m :=
  ⟨rfl, rfl, rfl, rfl, rfl, by simp [Matching.push, Engine.trades]⟩

theorem UpToDeltas.withLevels {m n : Matching} (h : UpToDeltas m n) (levels : List PriceLevel) :
    UpToDeltas (m.withLevels o levels) (n.withLevels o levels) :=
  ⟨by simp only [Matching.withLevels, h.state], h.remaining, h.filledNotional, h.makerTouched,
    h.affected, h.trades⟩

theorem UpToDeltas.settleFill {m n : Matching} (h : UpToDeltas m n) (maker : RestingOrder) :
    UpToDeltas (settleFill e o m maker) (settleFill e o n maker) := by
  obtain ⟨hs, hr, hf, hm, ha, ht⟩ := h
  constructor <;>
    simp only [Engine.settleFill, Engine.trades, List.filterMap_append, hs, hr, hf, hm, ha] at ht ⊢
  rw [ht]

theorem UpToDeltas.settleAll {m n : Matching} (h : UpToDeltas m n) (os : List RestingOrder) :
    UpToDeltas (settleAll e o m os) (settleAll e o n os) := by
  induction os generalizing m n with
  | nil => exact h
  | cons x xs ih => exact ih (h.settleFill e o x)

theorem settleAll_append (m : Matching) (xs ys : List RestingOrder) :
    settleAll e o m (xs ++ ys) = settleAll e o (settleAll e o m xs) ys := by
  simp only [settleAll, List.foldl_append]

theorem crossing_cons (l : PriceLevel) (ls : List PriceLevel) :
    crossing o (l :: ls) = if crosses o l.price then l.orders ++ crossing o ls else [] := by
  unfold crossing
  rw [List.takeWhile_cons]
  split_ifs <;> rfl

/-- The outer loop settles the fills against all levels that cross. -/
theorem outer_spec {m : Matching} {levels : List PriceLevel}
    (h : levelsFor m.state (maker_side o.side) = levels) {n : ℕ} (hn : levels.length < n) :
    UpToDeltas (loop (OuterCond o) (matchLevel e o) n m)
      ((settleAll e o m ((hits (crossing o levels) m.remaining).map Prod.fst)).withLevels o
        (sweepLevels o levels m.remaining)) := by
  induction levels generalizing m n with
  | nil =>
    rw [loop_of_not _ _ (not_outerCond_nil o h)]
    show UpToDeltas m (m.withLevels o [])
    rw [withLevels_self o h]
    exact .refl m
  | cons l ls ih =>
    obtain ⟨n, rfl⟩ : ∃ k, n = k + 1 := ⟨n - 1, by omega⟩
    rw [List.length_cons] at hn
    by_cases hc : m.remaining > 1e-9 ∧ crosses o l.price = true
    · rw [loop_of_cond _ _ ((outerCond_iff o h).mpr hc), crossing_cons, if_pos hc.2, hits_append,
        List.map_append, settleAll_append, sweepLevels, if_pos hc, matchLevel_eq e o h]
      by_cases he : afterFills l.orders m.remaining = []
      · rw [if_pos he, if_pos he]
        have hlt : ls.length < n := by omega
        have hrem := settleAll_remaining e o m l.orders
        rw [← hrem]
        generalize settleAll e o m ((hits l.orders m.remaining).map Prod.fst) = k
        have hlev (d : DraftOutput) :
            levelsFor ((k.withLevels o ls).push d).state (maker_side o.side) = ls :=
          levelsFor_withLevels o k ls
        -- the delta of this level stays in front of the later fills
        have hdelta (d : OrderBookDelta) (os : List RestingOrder) (levels : List PriceLevel) :=
          ((UpToDeltas.push (k.withLevels o ls) d).settleAll e o os).withLevels o levels
        simp only [settleAll_withLevels, withLevels_withLevels] at hdelta
        exact (ih (hlev _) hlt).trans (hdelta _ _ _)
      · rw [if_neg he, if_neg he]
        have hdone : ¬ leftover l.orders m.remaining > 1e-9 := leftover_of_afterFills_ne_nil he
        have hrem := settleAll_remaining e o m l.orders
        rw [loop_of_not _ _ (fun hcond => hdone (hrem ▸ hcond.1)), hits_of_le hdone]
        exact UpToDeltas.push _ _
    · rw [loop_of_not _ _ (fun hcond => hc ((outerCond_iff o h).mp hcond)), sweepLevels, if_neg hc]
      have hnone : hits (crossing o (l :: ls)) m.remaining = [] := by
        rw [crossing_cons]
        split_ifs with hx
        · exact hits_of_le (fun hr => hc ⟨hr, hx⟩) _
        · rfl
      rw [hnone]
      show UpToDeltas m (m.withLevels o (l :: ls))
      rw [withLevels_self o h]
      exact .refl m

/-- The loops settle the fills against the makers the taker crosses, in order,
and leave of the maker side what those fills leave of it. -/
theorem matchLoop_spec (m : Matching) :
    UpToDeltas (matchLoop e o m)
      ((settleAll e o m ((hits (crossing o (levelsFor m.state (maker_side o.side)))
        m.remaining).map Prod.fst)).withLevels o
          (sweepLevels o (levelsFor m.state (maker_side o.side)) m.remaining)) :=
  outer_spec e o rfl (Nat.lt_succ_self _)

/-- Rounds of the outer loop still possible. -/
def outerRounds (m : Matching) : ℕ :=
  if m.remaining > 1e-9 then (levelsFor m.state (maker_side o.side)).length + 1 else 0

theorem outerRounds_lt (m : Matching) (hc : OuterCond o m) :
    outerRounds o (matchLevel e o m) < outerRounds o m := by
  cases h : levelsFor m.state (maker_side o.side) with
  | nil => exact absurd hc (not_outerCond_nil o h)
  | cons l more =>
    have hrem : (matchLevel e o m).remaining = leftover l.orders m.remaining := by
      rw [matchLevel_eq e o h]
      exact settleAll_remaining e o m l.orders
    have hlev : levelsFor (matchLevel e o m).state (maker_side o.side) =
        if afterFills l.orders m.remaining = [] then more
        else { l with orders := afterFills l.orders m.remaining } :: more := by
      rw [matchLevel_eq e o h]
      exact levelsFor_withLevels o _ _
    unfold outerRounds
    rw [hrem, hlev, h, if_pos hc.1, List.length_cons]
    by_cases he : afterFills l.orders m.remaining = []
    · rw [if_pos he]
      split_ifs <;> omega
    · rw [if_neg (leftover_of_afterFills_ne_nil he)]
      omega

theorem outerRounds_le (m : Matching) :
    outerRounds o m ≤ (levelsFor m.state (maker_side o.side)).length + 1 := by
  unfold outerRounds
  split_ifs <;> omega

/-- The outer loop ends by its own condition. -/
theorem matchLoop_exit (m : Matching) : ¬ OuterCond o (matchLoop e o m) :=
  loop_exit (outerRounds_lt e o) (outerRounds_le o m)

/-- More rounds change nothing. -/
theorem matchLoop_enough (m : Matching) {n : ℕ}
    (hn : (levelsFor m.state (maker_side o.side)).length + 1 ≤ n) :
    loop (OuterCond o) (matchLevel e o) n m = matchLoop e o m :=
  loop_enough (outerRounds_lt e o) (outerRounds_le o m) hn

/-- The loops draft nothing but trades and deltas. -/
def IsMatchDraft (d : DraftOutput) : Prop :=
  (∃ t, d = .tradeExecuted t) ∨ ∃ x, d = .orderBookDelta x

theorem matchHead_drafts {m : Matching} (h : ∀ d ∈ m.outs, IsMatchDraft d) :
    ∀ d ∈ (matchHead e o m).outs, IsMatchDraft d := by
  unfold matchHead
  split
  · intro d hd
    rcases List.mem_append.mp hd with hd | hd
    · exact h d hd
    · exact Or.inl ⟨_, List.mem_singleton.mp hd⟩
  · exact h

theorem matchLevel_drafts {m : Matching} (h : ∀ d ∈ m.outs, IsMatchDraft d) :
    ∀ d ∈ (matchLevel e o m).outs, IsMatchDraft d := by
  unfold matchLevel
  split
  · exact h
  · next level _ _ =>
    intro d hd
    rcases List.mem_append.mp hd with hd | hd
    · exact loop_invariant (I := fun m : Matching => ∀ d ∈ m.outs, IsMatchDraft d)
        (fun _ _ hI => matchHead_drafts e o hI) (level.orders.length + 1) h d hd
    · exact Or.inr ⟨_, List.mem_singleton.mp hd⟩

theorem matchLoop_drafts {m : Matching} (h : ∀ d ∈ m.outs, IsMatchDraft d) :
    ∀ d ∈ (matchLoop e o m).outs, IsMatchDraft d :=
  loop_invariant (I := fun m : Matching => ∀ d ∈ m.outs, IsMatchDraft d)
    (fun _ _ hI => matchLevel_drafts e o hI) _ h

end Settle

end Engine

end Perps
