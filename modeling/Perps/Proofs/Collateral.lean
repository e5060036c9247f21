import Perps.Domain.Fills
import Perps.Domain.Ledger
import Perps.Proofs.BookInvariant

/-! Collateral reconciles: a user's locked balance is the margin of the resting
orders and of the position, up to half a step for every trade as taker and for
every accepted order. -/

namespace Perps

open Lib

/-- The margin of the user's orders among `os`. -/
def restingMargin (u : String) (os : List RestingOrder) : ℚ :=
  ((os.filter fun x => x.userId = u).map RestingOrder.margin).sum

/-- The margin of one order, if it is the user's. -/
def ownMargin (u : String) (x : RestingOrder) : ℚ := if x.userId = u then x.margin else 0

@[simp] theorem restingMargin_nil (u : String) : restingMargin u [] = 0 := rfl

@[simp] theorem restingMargin_cons (u : String) (x : RestingOrder) (os : List RestingOrder) :
    restingMargin u (x :: os) = ownMargin u x + restingMargin u os := by
  unfold restingMargin ownMargin
  rw [List.filter_cons]
  by_cases h : x.userId = u <;> simp [h]

@[simp] theorem restingMargin_append (u : String) (xs ys : List RestingOrder) :
    restingMargin u (xs ++ ys) = restingMargin u xs + restingMargin u ys := by
  simp [restingMargin]

theorem restingMargin_perm (u : String) {xs ys : List RestingOrder} (h : xs.Perm ys) :
    restingMargin u xs = restingMargin u ys :=
  ((h.filter _).map _).sum_eq

theorem restingMargin_nonneg (u : String) {os : List RestingOrder} (h : ∀ x ∈ os, 0 ≤ x.margin) :
    0 ≤ restingMargin u os := by
  refine List.sum_nonneg fun m hm => ?_
  obtain ⟨x, hx, rfl⟩ := List.mem_map.mp hm
  exact h x (List.mem_of_mem_filter hx)

namespace Engine

/-- A resting order on the grid. -/
structure MakerOK (x : RestingOrder) : Prop where
  remaining_grid : Grid x.remaining
  live : 0 < x.remaining
  margin_nonneg : 0 ≤ x.margin
  margin_grid : Grid x.margin

section Fill

variable {x : RestingOrder} {f : ℚ}

theorem fillMaker_margin (hx : MakerOK x) : (fillMaker x f).margin = x.margin - makerFillMargin x f :=
  q_of_grid (hx.margin_grid.sub (makerFillMargin_grid x f))

theorem fillMaker_margin_nonneg (hx : MakerOK x) (hf : f ≤ x.remaining) :
    0 ≤ (fillMaker x f).margin := by
  rw [fillMaker_margin hx, sub_nonneg]
  exact makerFillMargin_le hf hx.margin_nonneg hx.margin_grid

/-- An exhausted maker has no margin left. -/
theorem exhausted_margin (hx : MakerOK x) (hfg : Grid f) (hf : f ≤ x.remaining)
    (h : (fillMaker x f).remaining ≤ 1e-9) : (fillMaker x f).margin = 0 := by
  have hg : Grid (x.remaining - f) := hx.remaining_grid.sub hfg
  have hrem : (fillMaker x f).remaining = x.remaining - f := q_of_grid hg
  have hle : ¬ 0 < x.remaining - f := fun hpos => by
    have := (grid_gt_iff hg).mpr hpos
    linarith
  obtain rfl : f = x.remaining := le_antisymm hf (by linarith)
  rw [fillMaker_margin hx, makerFillMargin, if_pos hx.live, div_self hx.live.ne', one_mul,
    q_of_grid hx.margin_grid, sub_self]

theorem restingMargin_shiftFilled (u : String) (hx : MakerOK x) (hfg : Grid f)
    (hf : f ≤ x.remaining) (rest : List RestingOrder) :
    restingMargin u (shiftFilled (fillMaker x f) rest) =
      ownMargin u (fillMaker x f) + restingMargin u rest := by
  unfold shiftFilled
  split_ifs with h
  · unfold ownMargin
    rw [exhausted_margin hx hfg hf h, ite_self, zero_add]
  · rw [restingMargin_cons]

end Fill

variable (e : EnvelopeMeta) (o : PlaceOrder)

/-- The locked collateral of the taker that goes with the quantity `r`, not
rounded. -/
def pending (v : String) (r : ℚ) : ℚ := if v = o.userId then r * marginPerUnit o else 0

theorem pending_nonneg {o : PlaceOrder} (ho : o.Valid) (v : String) {r : ℚ} (hr : 0 ≤ r) :
    0 ≤ pending o v r := by
  unfold pending
  split_ifs
  · exact mul_nonneg hr (div_nonneg ho.2.2.2.2.2.le ho.2.2.1.le)
  · exact le_rfl

/-- The distance of a user's locked balance from the obligations `X`, apart
from the position. -/
def gap (s : EngineState) (v : String) (X : ℚ) : ℚ := |(s.bal v).locked - (X + (s.pos v).margin)|

/-- Half a step for the taker. -/
def takerDust (v : String) (n : ℕ) : ℚ := if v = o.userId then halfStep * n else 0

/-- One fill widens the gap of the taker by at most half a step. -/
theorem settleFill_gap {o : PlaceOrder} (ho : o.Valid) {m : Matching} (hm : AccountsOK m.state)
    {x : RestingOrder} (hx : MakerOK x) {f : ℚ} (hfm : f = min m.remaining x.remaining)
    (hf : 0 < f) (hfg : Grid f) :
    AccountsOK (settleFill e o m x).state ∧ ∀ v, ∀ X : ℚ, 0 ≤ X → f ≤ m.remaining →
      gap (settleFill e o m x).state v
          (X + ownMargin v (fillMaker x f) + pending o v (m.remaining - f)) ≤
        gap m.state v (X + ownMargin v x + pending o v m.remaining) + takerDust o v 1 := by
  subst hfm
  generalize hff : min m.remaining x.remaining = f at *
  have hfx : f ≤ x.remaining := hff ▸ min_le_right _ _
  obtain ⟨hok1, hgap1⟩ := applyFill_gap hm x.userId x.side hf hfg
    (makerFillMargin_nonneg hx.margin_nonneg hf.le) (makerFillMargin_grid x f) x.price x.leverage
  obtain ⟨hok2, hgap2⟩ := applyFill_gap hok1 o.userId o.side hf hfg
    (takerFillMargin_nonneg ho hf.le) (grid_q _) x.price o.leverage
  have hstate (v : String) : (settleFill e o m x).state.bal v =
      (applyFill (applyFill m.state x.userId x.side x.price f (makerFillMargin x f) x.leverage)
        o.userId o.side x.price f (takerFillMargin o f) o.leverage).bal v ∧
      (settleFill e o m x).state.pos v =
      (applyFill (applyFill m.state x.userId x.side x.price f (makerFillMargin x f) x.leverage)
        o.userId o.side x.price f (takerFillMargin o f) o.leverage).pos v := by
    subst hff
    exact ⟨rfl, rfl⟩
  refine ⟨fun v => by rw [(hstate v).1, (hstate v).2]; exact hok2 v, fun v X hX hle => ?_⟩
  have hX1 : 0 ≤ X + ownMargin v (fillMaker x f) + pending o v (m.remaining - f) := by
    have h1 : 0 ≤ ownMargin v (fillMaker x f) := by
      unfold ownMargin
      split_ifs
      · exact fillMaker_margin_nonneg hx hfx
      · exact le_rfl
    have h2 := pending_nonneg ho v (sub_nonneg.mpr hle)
    linarith
  have hX2 : 0 ≤ (if v = o.userId then takerFillMargin o f else 0) := by
    split_ifs
    · exact takerFillMargin_nonneg ho hf.le
    · exact le_rfl
  have hmaker : ownMargin v (fillMaker x f) + (if v = x.userId then makerFillMargin x f else 0) =
      ownMargin v x := by
    unfold ownMargin
    rw [fillMaker_margin hx]
    by_cases hv : x.userId = v
    · simp [fillMaker, hv]
    · simp [fillMaker, hv, Ne.symm hv]
  have htaker : |(if v = o.userId then takerFillMargin o f else 0) -
      (pending o v m.remaining - pending o v (m.remaining - f))| ≤ takerDust o v 1 := by
    unfold pending takerDust
    split_ifs
    · have := abs_q_sub_le (f * marginPerUnit o)
      rw [takerFillMargin, ← sub_mul, sub_sub_cancel]
      simpa using this
    · simp
  have h2 := hgap2 v _ hX1
  have h1 := hgap1 v _ (add_nonneg hX1 hX2)
  unfold gap
  rw [(hstate v).1, (hstate v).2]
  refine h2.trans (le_trans (le_of_eq ?_) (h1.trans (le_trans (le_of_eq ?_)
    ((abs_sub _ _).trans (add_le_add le_rfl htaker)))))
  · exact congrArg _ (by ring)
  · exact congrArg _ (by rw [← hmaker]; ring)

theorem takerDust_succ (v : String) (n : ℕ) :
    takerDust o v 1 + takerDust o v n = takerDust o v (n + 1) := by
  unfold takerDust
  split_ifs
  · push_cast
    ring
  · ring

theorem takerDust_nonneg (v : String) (n : ℕ) : 0 ≤ takerDust o v n := by
  unfold takerDust
  split_ifs
  · exact mul_nonneg halfStep_nonneg (Nat.cast_nonneg n)
  · exact le_rfl

/-- The fills of a queue widen the gap of the taker by at most half a step each. -/
theorem settleAll_gap {o : PlaceOrder} (ho : o.Valid) {os : List RestingOrder}
    (hos : ∀ x ∈ os, MakerOK x) {m : Matching} (hm : AccountsOK m.state) (hg : Grid m.remaining)
    (h0 : 0 ≤ m.remaining) :
    AccountsOK (settleAll e o m ((hits os m.remaining).map Prod.fst)).state ∧
      ∀ v, ∀ X : ℚ, 0 ≤ X →
        gap (settleAll e o m ((hits os m.remaining).map Prod.fst)).state v
            (X + restingMargin v (afterFills os m.remaining) +
              pending o v (leftover os m.remaining)) ≤
          gap m.state v (X + restingMargin v os + pending o v m.remaining) +
            takerDust o v (hits os m.remaining).length := by
  induction os generalizing m with
  | nil =>
    refine ⟨hm, fun v X _ => ?_⟩
    simpa [afterFills, leftover, hits, settleAll] using takerDust_nonneg o v 0
  | cons x xs ih =>
    have hx := hos x List.mem_cons_self
    have hxs : ∀ y ∈ xs, MakerOK y := fun y hy => hos y (List.mem_cons_of_mem _ hy)
    rw [hits, afterFills, leftover]
    split_ifs with hr
    · generalize hff : min m.remaining x.remaining = f
      have hfg : Grid f := hff ▸ hg.min hx.remaining_grid
      have hfr : f ≤ m.remaining := hff ▸ min_le_left _ _
      have hfx : f ≤ x.remaining := hff ▸ min_le_right _ _
      have hf : 0 < f := hff ▸ lt_min ((grid_gt_iff hg).mp hr) hx.live
      have hrem : (settleFill e o m x).remaining = m.remaining - f := by
        rw [settleFill_remaining, hff, q_of_grid (hg.sub hfg)]
      obtain ⟨hok, hgap⟩ := settleFill_gap e ho hm hx hff.symm hf hfg
      have ih := ih hxs hok (hrem ▸ hg.sub hfg) (hrem ▸ sub_nonneg.mpr hfr)
      rw [hrem] at ih
      rw [q_of_grid (hg.sub hfg)]
      refine ⟨ih.1, fun v X hX => ?_⟩
      have hown : 0 ≤ ownMargin v (fillMaker x f) := by
        unfold ownMargin
        split_ifs
        · exact fillMaker_margin_nonneg hx hfx
        · exact le_rfl
      have htail := ih.2 v (X + ownMargin v (fillMaker x f)) (add_nonneg hX hown)
      have hhead := hgap v (X + restingMargin v xs)
        (add_nonneg hX (restingMargin_nonneg v fun y hy => (hxs y hy).margin_nonneg)) hfr
      rw [restingMargin_shiftFilled v hx hfg hfx, restingMargin_cons, List.length_cons,
        ← takerDust_succ]
      have e1 : X + restingMargin v xs + ownMargin v (fillMaker x f) +
          pending o v (m.remaining - f) = X + ownMargin v (fillMaker x f) + restingMargin v xs +
            pending o v (m.remaining - f) := by ring
      have e2 : X + restingMargin v xs + ownMargin v x + pending o v m.remaining =
          X + (ownMargin v x + restingMargin v xs) + pending o v m.remaining := by ring
      rw [e1, e2] at hhead
      rw [← add_assoc X]
      exact htail.trans (by linarith)
    · refine ⟨hm, fun v X _ => ?_⟩
      simpa [settleAll] using takerDust_nonneg o v 0

/-- All that the engine keeps true of its accounts and its book. -/
structure CollateralOK (s : EngineState) : Prop where
  book : BookOK s
  accounts : AccountsOK s
  keys : KeysOK s
  grid : ∀ x ∈ s.resting, Grid x.remaining

theorem CollateralOK.maker {s : EngineState} (h : CollateralOK s) (side : Side) {x : RestingOrder}
    (hx : x ∈ ordersOf (levelsFor s side)) : MakerOK x := by
  have hok := (h.book.side side).order hx
  have hlive := hok.live
  exact ⟨h.grid x (BookOK.resting_of_side s hx), by linarith, hok.margin_nonneg, hok.margin_grid⟩

/-- The distance of a user's locked balance from all it stands for. -/
def drift (s : EngineState) (v : String) : ℚ := gap s v (restingMargin v s.resting)

theorem drift_eq (s : EngineState) (v : String) (side : Side) :
    drift s v = gap s v (restingMargin v (ordersOf (levelsFor s side)) +
      restingMargin v (ordersOf (levelsFor s (maker_side side)))) := by
  rw [drift, restingMargin_perm v (BookOK.resting_perm s side), restingMargin_append]

/-- Locking the collateral of an order makes it pending. -/
theorem lock_gap {s : EngineState} (h : AccountsOK s) {o : PlaceOrder} (ho : o.Valid)
    (hg : Grid o.margin) (hl : (lock s o.userId o.margin).2 = true) :
    AccountsOK (lock s o.userId o.margin).1 ∧ ∀ v X,
      gap (lock s o.userId o.margin).1 v (X + pending o v o.quantity) = gap s v X := by
  have hbal (v : String) := bal_set s o.userId v ((s.bal o.userId).lock o.margin)
  have hlocked : ((s.bal o.userId).lock o.margin).locked = (s.bal o.userId).locked + o.margin :=
    q_of_grid ((h _).locked_grid.add hg)
  have hpos (v : String) := pos_lock s o.userId o.margin v
  rw [lock_fst s o.userId o.margin hl] at hpos ⊢
  have hmargin : o.quantity * marginPerUnit o = o.margin := mul_div_cancel₀ _ ho.2.2.1.ne'
  constructor
  · intro v
    rw [hbal, hpos]
    split_ifs with hv
    · obtain ⟨-, h2, h3, h4, h5⟩ := h v
      exact ⟨grid_q _, h2, h3, h4, h5⟩
    · exact h v
  · intro v X
    unfold gap
    rw [hbal, hpos, pending]
    by_cases hv : v = o.userId
    · rw [if_pos hv, if_pos hv, hlocked, hmargin, hv]
      exact congrArg _ (by ring)
    · rw [if_neg hv, if_neg hv, add_zero]

/-- The fills of an accepted order. -/
theorem matched_gap {s : EngineState} (h : CollateralOK s) {o : PlaceOrder} (ho : o.Valid)
    (hQ : Grid o.quantity) (hg : Grid o.margin) (hl : (lock s o.userId o.margin).2 = true) :
    AccountsOK (matched s e o).state ∧ ∀ v,
      gap (matched s e o).state v (restingMargin v (ordersOf (levelsFor s o.side)) +
          restingMargin v (ordersOf (sweepLevels o (levelsFor s (maker_side o.side)) o.quantity)) +
          pending o v (matched s e o).remaining) ≤
        drift s v + takerDust o v (fillsOf s o).length := by
  obtain ⟨hok, hlock⟩ := lock_gap h.accounts ho hg hl
  have hside := ordersOf_eq o (levelsFor s (maker_side o.side))
  have hmakers : ∀ x ∈ crossing o (levelsFor s (maker_side o.side)), MakerOK x := fun x hx =>
    h.maker (maker_side o.side) (hside ▸ List.mem_append_left _ hx)
  obtain ⟨hok', hfills⟩ := settleAll_gap e ho hmakers (m := matchStart _ o) hok hQ ho.2.2.1.le
  have hbal := matched_bal s e o
  have hpos := matched_pos s e o
  refine ⟨fun v => by rw [hbal, hpos]; exact hok' v, fun v => ?_⟩
  generalize hX : restingMargin v (ordersOf (levelsFor s o.side)) +
    restingMargin v (beyond o (levelsFor s (maker_side o.side))) = X
  have hX0 : 0 ≤ X := by
    rw [← hX]
    refine add_nonneg (restingMargin_nonneg v fun x hx => (h.maker _ hx).margin_nonneg)
      (restingMargin_nonneg v fun x hx => (h.maker (maker_side o.side) ?_).margin_nonneg)
    exact hside ▸ List.mem_append_right _ hx
  have hfills : gap (filledOrder s e o).state v
      (X + restingMargin v (afterFills (crossing o (levelsFor s (maker_side o.side))) o.quantity) +
        pending o v (matched s e o).remaining) ≤
      gap (lock s o.userId o.margin).1 v
        (X + restingMargin v (crossing o (levelsFor s (maker_side o.side))) +
          pending o v o.quantity) + takerDust o v (fillsOf s o).length := by
    rw [matched_remaining]
    exact hfills v X hX0
  have hgap : gap (matched s e o).state v = gap (filledOrder s e o).state v := by
    funext Y
    rw [gap, gap, hbal, hpos]
  rw [hlock] at hfills
  rw [drift_eq s v o.side, hside, ordersOf_sweepLevels, restingMargin_append, restingMargin_append,
    hgap]
  convert hfills using 3 <;> rw [← hX] <;> ring

/-- Obligations that differ by at most `d` move the gap by at most `d`. -/
theorem gap_le_add (s : EngineState) (v : String) {X Y d : ℚ} (h : |Y - X| ≤ d) :
    gap s v Y ≤ gap s v X + d := by
  have heq : (s.bal v).locked - (Y + (s.pos v).margin) =
      (s.bal v).locked - (X + (s.pos v).margin) - (Y - X) := by ring
  unfold gap
  rw [heq]
  exact (abs_sub _ _).trans (add_le_add le_rfl h)

/-- A release does not widen the gap to what is left of the obligations. -/
theorem release_account {s : EngineState} (h : AccountsOK s) (u : String) {a : ℚ} (ha : 0 ≤ a)
    (hg : Grid a) : AccountsOK (release s u a).1 ∧ ∀ v, ∀ X : ℚ, 0 ≤ X →
      gap (release s u a).1 v X ≤ gap s v (X + if v = u then a else 0) := by
  have hbal (v : String) : (release s u a).1.bal v =
      if v = u then (s.bal u).release a else s.bal v := by
    rw [release_eq]
    exact bal_set s u v _
  have hpos (v : String) : (release s u a).1.pos v = s.pos v := by
    rw [release_eq]
    rfl
  constructor
  · intro v
    rw [hbal, hpos]
    split_ifs with hv
    · obtain ⟨-, h2, h3, h4, h5⟩ := h v
      exact ⟨grid_q _, h2, h3, h4, h5⟩
    · exact h v
  · intro v X hX
    have hp := (h v).margin_nonneg
    unfold gap
    rw [hbal, hpos]
    split_ifs with hv
    · subst hv
      have hrel := release_gap (h v).locked_grid ha hg (S := X + a + (s.pos v).margin)
        (by linarith)
      rwa [add_right_comm X a, add_sub_cancel_right, add_right_comm X _ a] at hrel
    · rw [add_zero]

/-- What is left of an order is rounded once more when it rests or is refunded. -/
theorem remainder_gap {o : PlaceOrder} (ho : o.Valid) {m : Matching} (hm : AccountsOK m.state)
    (hg : Grid m.remaining) (h0 : 0 ≤ m.remaining) (hbook : BookOK m.state)
    {r : EngineState × List DraftOutput × OrderStatus} (h : Remainder e o m r) :
    AccountsOK r.1 ∧ ∀ v, drift r.1 v ≤
      gap m.state v (restingMargin v m.state.resting + pending o v m.remaining) +
        takerDust o v 1 := by
  -- rounding what is pending costs half a step
  have hpend (v : String) : gap m.state v (restingMargin v m.state.resting +
      if v = o.userId then q (m.remaining * marginPerUnit o) else 0) ≤
      gap m.state v (restingMargin v m.state.resting + pending o v m.remaining) +
        takerDust o v 1 := by
    refine gap_le_add m.state v ?_
    rw [add_sub_add_left_eq_sub]
    unfold pending takerDust
    split_ifs
    · simpa using abs_q_sub_le (m.remaining * marginPerUnit o)
    · simp
  cases h with
  | rests ht hr =>
    have hbal (v : String) : (insertResting (nextSeq m.state).1
        (restingOrder e o m.remaining (m.state.seq + 1))).bal v = m.state.bal v := by
      unfold insertResting
      cases (restingOrder e o m.remaining (m.state.seq + 1)).side <;> rfl
    have hpos (v : String) : (insertResting (nextSeq m.state).1
        (restingOrder e o m.remaining (m.state.seq + 1))).pos v = m.state.pos v :=
      pos_setLevels _ _ _ v
    refine ⟨fun v => by rw [hbal, hpos]; exact hm v, fun v => ?_⟩
    have hperm : (insertResting (nextSeq m.state).1
        (restingOrder e o m.remaining (m.state.seq + 1))).resting.Perm
          (restingOrder e o m.remaining (m.state.seq + 1) :: m.state.resting) :=
      insertResting_resting _ (by rw [nextSeq_levels]; exact hbook.side _)
    refine le_trans (le_of_eq ?_) (hpend v)
    rw [drift, restingMargin_perm v hperm, restingMargin_cons, gap, gap, hbal, hpos, add_comm
      (ownMargin v _)]
    simp only [ownMargin, restingOrder, eq_comm]
  | refunded ht hr =>
    have hmpu : 0 ≤ m.remaining * marginPerUnit o :=
      mul_nonneg h0 (div_nonneg ho.2.2.2.2.2.le ho.2.2.1.le)
    obtain ⟨hok, hrel⟩ := release_account hm o.userId (q_nonneg hmpu) (grid_q _)
    refine ⟨hok, fun v => le_trans ?_ (hpend v)⟩
    have hX := restingMargin_nonneg v hbook.margin_nonneg
    have hrest : (release m.state o.userId (q (m.remaining * marginPerUnit o))).1.resting =
        m.state.resting := by
      rw [release_eq]
      rfl
    rw [drift, hrest]
    exact hrel v _ hX
  | filled hr =>
    have hzero : m.remaining = 0 :=
      le_antisymm (not_lt.mp fun hpos => hr ((grid_gt_iff hg).mpr hpos)) h0
    refine ⟨hm, fun v => ?_⟩
    have hpz : pending o v m.remaining = 0 := by
      unfold pending
      rw [hzero, zero_mul, ite_self]
    rw [hpz, add_zero]
    exact le_add_of_nonneg_right (takerDust_nonneg o v 1)

/-- An accepted order: at most half a step for each of its fills, and one for
its remainder. -/
theorem placed_drift {s : EngineState} (h : CollateralOK s) {o : PlaceOrder} (ho : o.Valid)
    (hQ : Grid o.quantity) (hg : Grid o.margin) (hl : (lock s o.userId o.margin).2 = true) :
    CollateralOK (placedState s e o) ∧ ∀ v,
      drift (placedState s e o) v ≤ drift s v + takerDust o v ((fillsOf s o).length + 1) := by
  obtain ⟨hok, hgap⟩ := matched_gap e h ho hQ hg hl
  have hmg := matched_grid s e o hQ
  have hm0 : 0 ≤ (matched s e o).remaining := by
    rw [matched_remaining]
    exact leftover_nonneg _ ho.2.2.1.le
  have hbook := bookOK_matched h.book e o
  have hR := settleRemainder_cases e o (matched s e o)
  obtain ⟨hok', hrem⟩ := remainder_gap e ho hok hmg hm0 hbook hR
  have hkeys : KeysOK (placedState s e o) := keysOK_of_pos
    (keysOK_settleAll _ _ (keysOK_of_pos h.keys fun v => pos_lock _ _ _ v) _) (pos_placed s e o)
  refine ⟨⟨bookOK_placed h.book e ho, hok', hkeys, ?_⟩, fun v => ?_⟩
  · exact placed_resting_grid e o h.book h.grid hQ
  · have hresting : restingMargin v (matched s e o).state.resting =
        restingMargin v (ordersOf (levelsFor s o.side)) +
          restingMargin v (ordersOf (sweepLevels o (levelsFor s (maker_side o.side)) o.quantity)) := by
      rw [restingMargin_perm v (BookOK.resting_perm _ o.side), restingMargin_append, matched_own,
        matched_maker]
    have h1 := hrem v
    rw [hresting] at h1
    have h2 := hgap v
    have h3 := takerDust_succ o v (fillsOf s o).length
    show drift (settleRemainder e o (matched s e o)).1 v ≤ _
    linarith

theorem cancelled_drift {s : EngineState} (h : CollateralOK s) {c : CancelOrder}
    {level : PriceLevel} {removed : RestingOrder}
    (hlevel : (levelsFor s c.side).find? (fun l => l.price = c.price) = some level)
    (hremoved : level.orders.find? (fun x => x.orderId = c.orderId) = some removed)
    (huser : removed.userId = c.userId) :
    CollateralOK (release (withoutOrder s c level) c.userId removed.margin).1 ∧ ∀ v,
      drift (release (withoutOrder s c level) c.userId removed.margin).1 v ≤ drift s v := by
  have hperm := withoutOrder_resting hlevel hremoved
  have hbal (v : String) : (withoutOrder s c level).bal v = s.bal v := by
    unfold withoutOrder
    cases c.side <;> rfl
  have hpos (v : String) : (withoutOrder s c level).pos v = s.pos v := pos_setLevels _ _ _ v
  have hok : AccountsOK (withoutOrder s c level) := fun v => by
    rw [hbal, hpos]
    exact h.accounts v
  have hmaker : MakerOK removed := h.maker c.side
    (mem_ordersOf.mpr ⟨level, List.mem_of_find?_eq_some hlevel, List.mem_of_find?_eq_some hremoved⟩)
  obtain ⟨hok', hrel⟩ := release_account hok c.userId hmaker.margin_nonneg hmaker.margin_grid
  have hrest : (release (withoutOrder s c level) c.userId removed.margin).1.resting =
      (withoutOrder s c level).resting := by
    rw [release_eq]
    rfl
  have hsub : ∀ x ∈ (withoutOrder s c level).resting, x ∈ s.resting := fun x hx =>
    hperm.mem_iff.mpr (List.mem_cons_of_mem _ hx)
  refine ⟨⟨?_, hok', ?_, ?_⟩, fun v => ?_⟩
  · rw [release_eq]
    exact (bookOK_cancelled h.book hlevel).congr rfl rfl le_rfl
  · refine keysOK_of_pos (keysOK_of_pos h.keys hpos) fun v => ?_
    rw [release_eq]
    rfl
  · rw [hrest]
    exact fun x hx => h.grid x (hsub x hx)
  · have hX := restingMargin_nonneg v fun x hx => h.book.margin_nonneg x (hsub x hx)
    rw [drift, drift, hrest, restingMargin_perm v hperm, restingMargin_cons]
    refine (hrel v _ hX).trans (le_of_eq ?_)
    unfold gap ownMargin
    rw [hbal, hpos, huser, add_comm (restingMargin v _)]
    simp only [eq_comm]

theorem marked_drift {s : EngineState} (h : CollateralOK s) (p : IndexPriceUpdated) :
    CollateralOK (markedState s p) ∧ ∀ v, drift (markedState s p) v ≤ drift s v := by
  have hmark (v : String) := pos_markToMarket { s with lastObserverSeq := p.observerSeq } p.price v
  have hkeys := keysOK_marked h.keys p
  have hrest : (markedState s p).resting = s.resting := by
    rw [markedState, liquidationSweep_core]
    rfl
  have hcase := liquidationSweep_account hkeys p.price
  have hok (v : String) : AccountOK (s.bal v) (markPosition p.price (s.pos v)) := by
    obtain ⟨h1, h2, h3, h4, h5⟩ := h.accounts v
    exact ⟨h1, h2, h3, h4, h5⟩
  refine ⟨⟨?_, fun v => ?_, ?_, hrest ▸ h.grid⟩, fun v => ?_⟩
  · rw [markedState, liquidationSweep_core]
    exact h.book.congr rfl rfl le_rfl
  · rcases hcase v with ⟨-, hb, hp⟩ | ⟨hb, hp⟩
    · unfold markedState
      rw [hb, hp]
      exact ⟨grid_q _, grid_zero, le_rfl, grid_zero, fun _ => rfl⟩
    · unfold markedState
      rw [hb, hp, hmark]
      exact hok v
  · intro v
    rcases hcase v with ⟨-, -, hp⟩ | ⟨-, hp⟩
    · exact (congrArg Position.userId hp).trans (hkeys v)
    · exact (congrArg Position.userId hp).trans (hkeys v)
  · have hX := restingMargin_nonneg v h.book.margin_nonneg
    have hv := h.accounts v
    unfold drift gap
    rw [hrest]
    rcases hcase v with ⟨-, hb, hp⟩ | ⟨hb, hp⟩
    · unfold markedState
      rw [hb, hp, hmark]
      have hrel := release_gap hv.locked_grid hv.margin_nonneg hv.margin_grid
        (S := restingMargin v s.resting + (s.pos v).margin) (by linarith)
      rw [add_sub_cancel_right] at hrel
      refine le_trans (le_of_eq ?_) hrel
      exact congrArg abs (congrArg _ (add_zero _))
    · unfold markedState
      rw [hb, hp, hmark]
      exact le_rfl

/-! Whole runs -/

/-- The trades among the outputs in which `u` is the taker. -/
def takerTrades (u : String) (outs : List EngineOutputEvent) : ℕ :=
  (trades (outs.map EngineOutputEvent.payload)).countP fun t => t.takerUserId = u

/-- The event places an order of `u`, and its outputs report that it is accepted. -/
def placesAccepted (u : String) (s : EngineState) (x : EngineInputEvent × StreamId) : Bool :=
  match x.1.payload with
  | .orderPlace o =>
    decide (o.userId = u) &&
      !(reports ((process s x.1 x.2).2.map EngineOutputEvent.payload)).isEmpty
  | _ => false

/-- The accepted orders of `u` in a run. -/
def acceptedPlacements (u : String) (s : EngineState) :
    List (EngineInputEvent × StreamId) → ℕ
  | [] => 0
  | x :: xs =>
    (if placesAccepted u s x then 1 else 0) + acceptedPlacements u (process s x.1 x.2).1 xs

/-- A valid event whose quantity and margin are multiples of `10 ^ (-8)`. -/
def GridEvent (e : EngineInputEvent) : Prop :=
  engineInputEventSchema e ∧ ∀ o, e.payload = .orderPlace o → Grid o.quantity ∧ Grid o.margin

instance : DecidablePred GridEvent := fun _ => inferInstanceAs (Decidable (_ ∧ _))

theorem collateralOK_createState (market : MarketConfig) : CollateralOK (createState market) :=
  ⟨bookOK_createState market,
    fun _ => ⟨grid_zero, grid_zero, le_rfl, grid_zero, fun _ => rfl⟩,
    keysOK_createState market, by simp [createState, EngineState.resting]⟩

/-- Both the invariant and the drift depend on the accounts and the book alone. -/
theorem CollateralOK.congr {s t : EngineState} (h : CollateralOK s) (hbal : ∀ v, t.bal v = s.bal v)
    (hpos : ∀ v, t.pos v = s.pos v) (hb : t.bids = s.bids) (ha : t.asks = s.asks)
    (hs : s.seq ≤ t.seq) : CollateralOK t ∧ ∀ v, drift t v = drift s v := by
  have hrest : t.resting = s.resting := by rw [EngineState.resting, hb, ha]; rfl
  refine ⟨⟨h.book.congr hb ha hs, fun v => ?_, keysOK_of_pos h.keys hpos, hrest ▸ h.grid⟩,
    fun v => ?_⟩
  · rw [hbal, hpos]
    exact h.accounts v
  · rw [drift, drift, gap, gap, hrest, hbal, hpos]

theorem sameAccounts_collateral {s t : EngineState} (hsame : SameAccounts s t)
    (h : CollateralOK s) : CollateralOK t ∧ ∀ v, drift t v = drift s v := by
  refine h.congr hsame.bal hsame.pos ?_ ?_ ?_ <;> rw [hsame.core]

theorem sameCore_collateral {s t : EngineState} (hcore : SameCore s t) (h : CollateralOK s) :
    CollateralOK t ∧ ∀ v, drift t v = drift s v :=
  h.congr hcore.bal hcore.pos hcore.bids hcore.asks hcore.seq

theorem credit_collateral {s : EngineState} (h : CollateralOK s) (u : String) (amount : ℚ) :
    CollateralOK (credit s u amount) ∧ ∀ v, drift (credit s u amount) v = drift s v := by
  have hbal (v : String) := bal_set s u v ((s.bal u).add amount)
  have hlocked (v : String) : ((credit s u amount).bal v).locked = (s.bal v).locked := by
    rw [credit_eq, hbal]
    split_ifs with hv
    · rw [hv]
      rfl
    · rfl
  have hrest : (credit s u amount).resting = s.resting := by
    rw [credit_eq]
    rfl
  have hpos (v : String) : (credit s u amount).pos v = s.pos v := by
    rw [credit_eq]
    rfl
  refine ⟨⟨?_, fun v => ?_, keysOK_of_pos h.keys hpos, hrest ▸ h.grid⟩, fun v => ?_⟩
  · rw [credit_eq]
    exact h.book.congr rfl rfl le_rfl
  · obtain ⟨h1, h2, h3, h4, h5⟩ := h.accounts v
    rw [hpos]
    exact ⟨hlocked v ▸ h1, h2, h3, h4, h5⟩
  · rw [drift, drift, gap, gap, hlocked, hpos, hrest]

/-- An event that is not an accepted order leaves the drift as small as it was. -/
theorem effect_drift {s t : EngineState} {e : EngineInputEvent} (he : GridEvent e)
    (heff : Effect s e t) (h : CollateralOK s) :
    CollateralOK t ∧ ∀ v, drift t v ≤ drift s v ∨ ∃ o, e.payload = .orderPlace o ∧
      placeRejection s o = none ∧ (lock s o.userId o.margin).2 = true ∧
        drift t v ≤ drift s v + takerDust o v ((fillsOf s o).length + 1) := by
  cases heff with
  | unchanged => exact ⟨h, fun v => Or.inl le_rfl⟩
  | opened hsame =>
    obtain ⟨hok, hd⟩ := sameAccounts_collateral hsame h
    exact ⟨hok, fun v => Or.inl (hd v).le⟩
  | credited u amount _ _ hsame =>
    obtain ⟨hok, hd⟩ := credit_collateral h u amount
    obtain ⟨hok', hd'⟩ := sameAccounts_collateral hsame hok
    exact ⟨hok', fun v => Or.inl ((hd' v).trans (hd v)).le⟩
  | placed o hp hr hl hsame =>
    have hv := he.1.2
    rw [hp] at hv
    obtain ⟨hQ, hg⟩ := he.2 o hp
    obtain ⟨hok, hd⟩ := placed_drift e.toEnvelopeMeta h hv hQ hg hl
    obtain ⟨hok', hd'⟩ := sameAccounts_collateral hsame hok
    exact ⟨hok', fun v => Or.inr ⟨o, hp, hr, hl, (hd' v).le.trans (hd v)⟩⟩
  | cancelled c level removed _ hlevel hremoved huser hsame =>
    obtain ⟨hok, hd⟩ := cancelled_drift h hlevel hremoved huser
    obtain ⟨hok', hd'⟩ := sameAccounts_collateral hsame hok
    exact ⟨hok', fun v => Or.inl ((hd' v).le.trans (hd v))⟩
  | marked p _ _ hsame =>
    obtain ⟨hok, hd⟩ := marked_drift h p
    obtain ⟨hok', hd'⟩ := sameAccounts_collateral hsame hok
    exact ⟨hok', fun v => Or.inl ((hd' v).le.trans (hd v))⟩

/-- The dust of an accepted order is what the counters allow it. -/
theorem takerDust_eq {s : EngineState} {e : EngineInputEvent} {o : PlaceOrder}
    (hacc : Accepted s e o) (id : StreamId) (v : String) :
    takerDust o v ((fillsOf s o).length + 1) =
      halfStep * (takerTrades v (process s e id).2 + if placesAccepted v s (e, id) then 1 else 0 : ℕ) := by
  have htrades : trades ((process s e id).2.map EngineOutputEvent.payload) =
      (fillsOf s o).mapIdx (tradeOf s e.toEnvelopeMeta o) := by
    rw [hacc.payloads, placeAccepted_trades, matched_trades]
  have hreports := (accepted_iff_reports hacc.payload id).mp hacc
  have htaker : ∀ t ∈ (fillsOf s o).mapIdx (tradeOf s e.toEnvelopeMeta o),
      t.takerUserId = o.userId := by
    intro t ht
    obtain ⟨i, hi, rfl⟩ := List.mem_mapIdx.mp ht
    rfl
  have hplaces : placesAccepted v s (e, id) = decide (o.userId = v) := by
    simp [placesAccepted, hacc.payload, hreports]
  unfold takerTrades takerDust
  rw [htrades, hplaces]
  by_cases hv : v = o.userId
  · subst hv
    rw [if_pos rfl, List.countP_eq_length.mpr fun t ht => decide_eq_true (htaker t ht)]
    simp
  · rw [if_neg hv, List.countP_eq_zero.mpr fun t ht => by
      rw [htaker t ht]
      simpa using Ne.symm hv]
    simp [Ne.symm hv]

/-- One event. -/
theorem process_drift {s : EngineState} {e : EngineInputEvent} (h : CollateralOK s)
    (he : GridEvent e) (id : StreamId) :
    CollateralOK (process s e id).1 ∧ ∀ v, drift (process s e id).1 v ≤ drift s v +
      halfStep * (takerTrades v (process s e id).2 + if placesAccepted v s (e, id) then 1 else 0 : ℕ) := by
  have hdust (v : String) : 0 ≤ halfStep *
      (takerTrades v (process s e id).2 + if placesAccepted v s (e, id) then 1 else 0 : ℕ) :=
    mul_nonneg halfStep_nonneg (Nat.cast_nonneg _)
  by_cases ha : alreadyApplied s e = true
  · have hcore := sameCore_lastInputId s id
    obtain ⟨hok, hd⟩ := sameCore_collateral hcore h
    refine ⟨?_, fun v => le_trans ?_ (le_add_of_nonneg_right (hdust v))⟩
    · rw [process_applied ha]
      exact hok
    · rw [process_applied ha]
      exact (hd v).le
  · obtain ⟨hok, hd⟩ := effect_drift he (dispatch_effect s e he.1) h
    obtain ⟨hok', hd'⟩ := sameCore_collateral (process_new ha id) hok
    refine ⟨hok', fun v => ?_⟩
    rw [hd']
    rcases hd v with hle | ⟨o, hp, hr, hl, hle⟩
    · exact hle.trans (le_add_of_nonneg_right (hdust v))
    · rwa [takerDust_eq ⟨hp, ha, hr, hl⟩ id v] at hle

/-- A whole run. -/
theorem run_drift {s : EngineState} (h : CollateralOK s)
    {evs : List (EngineInputEvent × StreamId)} (hevs : RunOf GridEvent evs) (v : String) :
    drift (run s evs).1 v ≤ drift s v +
      halfStep * (takerTrades v (run s evs).2 + acceptedPlacements v s evs : ℕ) := by
  induction evs generalizing s with
  | nil => simp [run, takerTrades, trades, acceptedPlacements]
  | cons x xs ih =>
    obtain ⟨hok, hd⟩ := process_drift h (hevs x List.mem_cons_self) x.2
    have ih := ih hok fun y hy => hevs y (List.mem_cons_of_mem _ hy)
    have hd := hd v
    have hcount : takerTrades v (run s (x :: xs)).2 =
        takerTrades v (process s x.1 x.2).2 + takerTrades v (run (process s x.1 x.2).1 xs).2 := by
      show takerTrades v ((process s x.1 x.2).2 ++ (run (process s x.1 x.2).1 xs).2) = _
      rw [takerTrades, List.map_append, trades_append, List.countP_append]
      rfl
    rw [hcount, acceptedPlacements]
    refine ih.trans ((add_le_add hd le_rfl).trans (le_of_eq ?_))
    push_cast
    ring

/-- After every run from the start, a user's locked balance is the margin of
the resting orders and of the position, up to half a step for each trade as
taker and each accepted order. -/
theorem collateral_reconciles (market : MarketConfig) {evs : List (EngineInputEvent × StreamId)}
    (hevs : RunOf GridEvent evs) (u : String) :
    let r := run (createState market) evs
    |(r.1.bal u).locked - (restingMargin u (ordersOf r.1.bids ++ ordersOf r.1.asks) +
        (r.1.pos u).margin)| ≤
      0.5e-8 * (takerTrades u r.2 + acceptedPlacements u (createState market) evs : ℕ) := by
  have h := run_drift (collateralOK_createState market) hevs u
  have h0 : drift (createState market) u = 0 := by
    simp [drift, gap, createState, EngineState.resting, EngineState.bal, EngineState.pos,
      Balance.zero, Position.flat]
  have hstep : halfStep = 0.5e-8 := by norm_num [halfStep, SCALE]
  rw [h0, zero_add, hstep] at h
  exact h

open Fixture in
/-- A taker that opens, flips against itself and is left with a rounded third. -/
theorem collateral_reconciles_flip :
    let evs := numbered [user "m" 1000000, user "t" 1000000,
      place "m" "a1" .Ask .LIMIT 100 3 3 100, place "t" "b1" .Bid .LIMIT 100 1 1 100,
      place "t" "b2" .Bid .LIMIT 100 7 3 250, place "t" "c1" .Ask .MARKET 0 6 3 200]
    let r := run (createState MARKET) evs
    |(r.1.bal "t").locked - (restingMargin "t" (ordersOf r.1.bids ++ ordersOf r.1.asks) +
        (r.1.pos "t").margin)| ≤
      0.5e-8 * (takerTrades "t" r.2 + acceptedPlacements "t" (createState MARKET) evs : ℕ) :=
  collateral_reconciles MARKET (by decide +kernel) "t"

end Engine

end Perps
