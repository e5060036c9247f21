import Perps.Domain.Ledger
import Perps.Proofs.AccountRules

/-! The report on an accepted order and its trades. Where the order trades on the grid,
the report says what was traded and what is left, and an order that is done with leaves
nothing of its margin locked that the position does not stand for. -/

namespace Perps

open Lib

namespace Engine

/-- The quantity of the trades. -/
def tradedIn (ts : List TradeExecuted) : ℚ := (ts.map TradeExecuted.quantity).sum

/-- The queue that an order meets in the book before it. -/
def queueOf (s : EngineState) (o : PlaceOrder) : List RestingOrder :=
  crossing o (levelsFor s (maker_side o.side))

/-- The order is not too small to live, and if it trades, its quantity and the orders it
uses up are on the grid. -/
def TradesOnGrid (s : EngineState) (o : PlaceOrder) : Prop :=
  o.quantity > 1e-9 ∧
    (queueOf s o ≠ [] → Grid o.quantity ∧ ∀ x ∈ usedUp (queueOf s o) o.quantity, Grid x.remaining)

instance (s : EngineState) (o : PlaceOrder) : Decidable (TradesOnGrid s o) :=
  inferInstanceAs (Decidable (_ ∧ (_ → _ ∧ ∀ _ ∈ _, _)))

section Quantities

variable {s : EngineState} {e : EnvelopeMeta} {o : PlaceOrder}

theorem fillsOf_of_queue_nil (hq : queueOf s o = []) : fillsOf s o = [] :=
  congrArg (fun os => hits os o.quantity) hq

theorem TradesOnGrid.fills (h : TradesOnGrid s o) : ∀ y ∈ fillsOf s o, Grid y.2 := by
  intro y hy
  by_cases hq : queueOf s o = []
  · rw [fillsOf_of_queue_nil hq] at hy
    cases hy
  · obtain ⟨hQ, hused⟩ := h.2 hq
    exact (hits_exact hused hQ).1 y hy

theorem TradesOnGrid.traded_grid (h : TradesOnGrid s o) : Grid (traded (fillsOf s o)) := by
  refine Grid.sum fun x hx => ?_
  obtain ⟨y, hy, rfl⟩ := List.mem_map.mp hx
  exact h.fills y hy

/-- What is left is what was not traded. -/
theorem TradesOnGrid.remaining (h : TradesOnGrid s o) :
    (matched s e o).remaining = o.quantity - traded (fillsOf s o) := by
  rw [matched_remaining]
  by_cases hq : queueOf s o = []
  · rw [fillsOf_of_queue_nil hq]
    unfold queueOf at hq
    simp [hq, leftover, traded]
  · obtain ⟨hQ, hused⟩ := h.2 hq
    exact (hits_exact hused hQ).2

theorem TradesOnGrid.filled (h : TradesOnGrid s o) :
    q (o.quantity - (matched s e o).remaining) = traded (fillsOf s o) := by
  rw [h.remaining, sub_sub_cancel, q_of_grid h.traded_grid]

/-- Something is left alive unless all is traded. -/
theorem TradesOnGrid.live_iff (h : TradesOnGrid s o) (ho : o.Valid) :
    (matched s e o).remaining > 1e-9 ↔ traded (fillsOf s o) ≠ o.quantity := by
  have hremaining := h.remaining (e := e)
  by_cases hq : queueOf s o = []
  · rw [hremaining, fillsOf_of_queue_nil hq]
    have hpos := ho.2.2.1
    simp only [traded, List.map_nil, List.sum_nil, sub_zero]
    exact iff_of_true h.1 hpos.ne
  · rw [grid_gt_iff (matched_grid s e o (h.2 hq).1), hremaining, sub_pos, lt_iff_le_and_ne]
    have h0 : 0 ≤ (matched s e o).remaining := by
      rw [matched_remaining]
      exact leftover_nonneg _ ho.2.2.1.le
    rw [hremaining] at h0
    exact and_iff_right (sub_nonneg.mp h0)

theorem traded_pos_iff (hbook : BookOK s) : traded (fillsOf s o) > 0 ↔ fillsOf s o ≠ [] := by
  have hpos : ∀ x ∈ (fillsOf s o).map Prod.snd, 0 < x := by
    intro x hx
    obtain ⟨y, hy, rfl⟩ := List.mem_map.mp hx
    exact (fillsOf_bounds hbook hy).1
  constructor
  · intro h hnil
    rw [hnil] at h
    exact lt_irrefl 0 h
  · intro hne
    exact List.sum_pos _ hpos (List.map_eq_nil_iff.not.mpr hne)

/-! The status -/

/-- What is left of a limit order rests, under a new sequence number. -/
theorem rests_iff (hbook : BookOK s) {e : EngineInputEvent} (hacc : Accepted s e o) (id : StreamId) :
    (∃ x ∈ (process s e id).1.resting, x.orderId = o.orderId ∧ s.seq < x.seq) ↔
      o.orderType = .LIMIT ∧ (matched s e.toEnvelopeMeta o).remaining > 1e-9 := by
  have hmem (x : RestingOrder) : x ∈ (process s e id).1.resting ↔
      x ∈ ownRest e.toEnvelopeMeta o (matched s e.toEnvelopeMeta o) ∨
        x ∈ (matched s e.toEnvelopeMeta o).state.resting := by
    rw [hacc.resting, (placed_resting hbook _ o).mem_iff, List.mem_append]
  constructor
  · rintro ⟨x, hx, -, hseq⟩
    rcases (hmem x).mp hx with hx | hx
    · unfold ownRest at hx
      split_ifs at hx with hrest
      · exact hrest
      · cases hx
    · obtain ⟨y, hy, hxy⟩ := matched_reduced hbook _ o hx
      have hold := hbook.bounded y hy
      rw [← hxy.seq] at hold
      omega
  · intro hrest
    refine ⟨restingOrder e.toEnvelopeMeta o (matched s e.toEnvelopeMeta o).remaining
      ((matched s e.toEnvelopeMeta o).state.seq + 1), (hmem _).mpr (Or.inl ?_), rfl, ?_⟩
    · unfold ownRest
      rw [if_pos hrest]
      exact List.mem_singleton_self _
    · show s.seq < (matched s e.toEnvelopeMeta o).state.seq + 1
      rw [matched_seq]
      omega

/-- The status that is reported, by what was traded. -/
theorem TradesOnGrid.status (h : TradesOnGrid s o) (ho : o.Valid) (hbook : BookOK s) :
    ((settleRemainder e o (matched s e o)).2.2 = .FILLED ↔ traded (fillsOf s o) = o.quantity) ∧
      ((settleRemainder e o (matched s e o)).2.2 = .OPEN ↔ fillsOf s o = [] ∧
        o.orderType = .LIMIT ∧ (matched s e o).remaining > 1e-9) ∧
      ((settleRemainder e o (matched s e o)).2.2 = .CANCELLED → fillsOf s o = [] ∧
        o.orderType = .MARKET ∧ (matched s e o).remaining > 1e-9) := by
  have hlive := h.live_iff (e := e) ho
  have hpos := traded_pos_iff (o := o) hbook
  have hrem := settleRemainder_cases e o (matched s e o)
  generalize settleRemainder e o (matched s e o) = r at hrem
  cases hrem with
  | rests ht hr =>
    dsimp only
    rw [h.filled]
    have hne := hlive.mp hr
    by_cases hfills : fillsOf s o = []
    · rw [if_neg (hpos.not.mpr (not_not.mpr hfills))]
      exact ⟨iff_of_false (by simp) hne, iff_of_true rfl ⟨hfills, ht, hr⟩, by simp⟩
    · rw [if_pos (hpos.mpr hfills)]
      exact ⟨iff_of_false (by simp) hne, iff_of_false (by simp) fun hx => hfills hx.1, by simp⟩
  | refunded ht hr =>
    dsimp only
    rw [h.filled]
    have hne := hlive.mp hr
    have hlimit : o.orderType ≠ .LIMIT := by simp [ht]
    by_cases hfills : fillsOf s o = []
    · rw [if_neg (hpos.not.mpr (not_not.mpr hfills))]
      exact ⟨iff_of_false (by simp) hne, iff_of_false (by simp) fun hx => hlimit hx.2.1,
        fun _ => ⟨hfills, ht, hr⟩⟩
    · rw [if_pos (hpos.mpr hfills)]
      exact ⟨iff_of_false (by simp) hne, iff_of_false (by simp) fun hx => hlimit hx.2.1, by simp⟩
  | filled hr =>
    exact ⟨iff_of_true rfl (not_not.mp (hlive.not.mp hr)),
      iff_of_false (by simp) fun hx => hr hx.2.2, by simp⟩

end Quantities

/-! The margin -/

/-- A fill on the grid. -/
def Filled (f fm : ℚ) : Prop := 0 < f ∧ Grid f ∧ 0 ≤ fm ∧ Grid fm

theorem accountOK_rules (mmr : ℚ) :
    FillRules (fun _ => True) (fun f fm _ => Filled f fm) mmr fun _ => AccountOK where
  lock _ h := ⟨grid_q _, h.margin_grid, h.margin_nonneg, h.size_grid, h.flat_margin⟩
  release _ h := ⟨grid_q _, h.margin_grid, h.margin_nonneg, h.size_grid, h.flat_margin⟩
  fill hr hf h := (fill_gap hr h hf.1 hf.2.1 hf.2.2.1 hf.2.2.2 le_rfl).1
  mark h := ⟨h.locked_grid, h.margin_grid, h.margin_nonneg, h.size_grid, h.flat_margin⟩
  liquidate _ := ⟨grid_q _, grid_zero, le_rfl, grid_zero, fun _ => rfl⟩

theorem filled_legs {s : EngineState} (hbook : BookOK s) {o : PlaceOrder} (ho : o.Valid)
    (hgrid : ∀ y ∈ fillsOf s o, Grid y.2) :
    ∀ y ∈ fillsOf s o, LegsOK (fun f fm _ => Filled f fm) o y := by
  intro y hy
  obtain ⟨⟨hpos, hm0, hm⟩, -, ht0, ht⟩ := funded_legs hbook ho y hy
  exact ⟨⟨hpos, hgrid y hy, hm0, hm⟩, hpos, hgrid y hy, ht0, ht⟩

/-- The margin that a fill brings to the positions of `v`, as maker and as taker. -/
def ownLeg (v : String) (y : RestingOrder × ℚ) : ℚ :=
  if v = y.1.userId then makerFillMargin y.1 y.2 else 0

def takerLeg (o : PlaceOrder) (v : String) (y : RestingOrder × ℚ) : ℚ :=
  if v = o.userId then takerFillMargin o y.2 else 0

section Released

variable {s : EngineState} {o : PlaceOrder}

/-- The records of `v` in `s` and in `t`, with `m` added in between. -/
def ReleasedIn (s : EngineState) (v : String) (m : ℚ) (t : EngineState) : Prop :=
  Released (s.bal v) (s.pos v) m (t.bal v) (t.pos v)

theorem applyFill_released (h : AccountsOK s) (u : String) (side : Side) {f fm : ℚ}
    (hf : Filled f fm) (price lev : ℚ) (v : String) :
    ReleasedIn s v (if v = u then fm else 0) (applyFill s u side price f fm lev) := by
  unfold ReleasedIn
  rw [applyFill_eq, bal_withAccount, pos_withAccount]
  split_ifs with hv
  · rw [hv]
    exact fill_released (fillLeg_case _ _ _ _ _ _ _ _) (h u) hf.1 hf.2.1 hf.2.2.1 hf.2.2.2
  · exact .refl _ _

theorem settleFill_released (e : EnvelopeMeta) {m : Matching} (h : AccountsOK m.state)
    {x : RestingOrder}
    (hlegs : LegsOK (fun f fm _ => Filled f fm) o (x, min m.remaining x.remaining)) (v : String) :
    ReleasedIn m.state v (ownLeg v (x, min m.remaining x.remaining) +
      takerLeg o v (x, min m.remaining x.remaining)) (settleFill e o m x).state := by
  have hmaker : AccountsOK (applyFill m.state x.userId x.side x.price (min m.remaining x.remaining)
      (makerFillMargin x (min m.remaining x.remaining)) x.leverage) :=
    applyFill_accounts (accountOK_rules _) h rfl x.userId x.side x.price hlegs.1
  exact (applyFill_released h x.userId x.side hlegs.1 x.price x.leverage v).trans
    (applyFill_released hmaker o.userId o.side hlegs.2 x.price o.leverage v)

theorem settleAll_released (e : EnvelopeMeta) {m : Matching} (h : AccountsOK m.state)
    {os : List RestingOrder}
    (hlegs : ∀ y ∈ hits os m.remaining, LegsOK (fun f fm _ => Filled f fm) o y) (v : String) :
    ReleasedIn m.state v (((hits os m.remaining).map (ownLeg v)).sum +
        ((hits os m.remaining).map (takerLeg o v)).sum)
      (settleAll e o m ((hits os m.remaining).map Prod.fst)).state := by
  induction os generalizing m with
  | nil =>
    simp only [hits, List.map_nil, List.sum_nil, add_zero]
    exact .refl _ _
  | cons x xs ih =>
    rw [hits] at hlegs ⊢
    split_ifs at hlegs ⊢ with hr
    · have hx := hlegs _ List.mem_cons_self
      have hfill := settleFill_accounts (accountOK_rules _) e h rfl hx
      have hrest := ih (m := settleFill e o m x) hfill
        (fun y hy => hlegs y (List.mem_cons_of_mem _ hy))
      have hall := (settleFill_released e h hx v).trans hrest
      simp only [List.map_cons, List.sum_cons]
      rw [add_add_add_comm] at hall
      exact hall
    · simp only [List.map_nil, List.sum_nil, add_zero]
      exact .refl _ _

/-- The margins of the fills of a whole quantity are its margin, up to half a step each. -/
theorem takerLegs_ge (F : List (RestingOrder × ℚ)) :
    traded F * marginPerUnit o - halfStep * F.length ≤ (F.map (takerLeg o o.userId)).sum := by
  induction F with
  | nil => simp [traded]
  | cons y ys ih =>
    have hy : y.2 * marginPerUnit o - halfStep ≤ takerLeg o o.userId y := by
      unfold takerLeg
      rw [if_pos rfl]
      exact sub_le_q _
    simp only [traded, List.map_cons, List.sum_cons, List.length_cons] at ih ⊢
    push_cast
    linarith

end Released

/-- The margin that the fills bring from the user's own resting orders. -/
def ownFillMargin (s : EngineState) (o : PlaceOrder) : ℚ :=
  ((fillsOf s o).map (ownLeg o.userId)).sum

section Settled

variable {s : EngineState} (e : EnvelopeMeta) {o : PlaceOrder}

theorem placed_of_filled (hr : ¬ (matched s e o).remaining > 1e-9) :
    placedState s e o = (matched s e o).state := by
  show (settleRemainder e o (matched s e o)).1 = _
  unfold settleRemainder
  rw [if_neg fun h => hr h.2, if_neg fun h => hr h.2]

theorem placed_of_refunded (ht : o.orderType = .MARKET) (hr : (matched s e o).remaining > 1e-9) :
    placedState s e o =
      (release (matched s e o).state o.userId (q ((matched s e o).remaining * marginPerUnit o))).1 := by
  show (settleRemainder e o (matched s e o)).1 = _
  unfold settleRemainder
  rw [if_neg fun h => by simp [ht] at h, if_pos ⟨ht, hr⟩]

theorem locked_lock (hl : (lock s o.userId o.margin).2 = true) :
    ((lock s o.userId o.margin).1.bal o.userId).locked = q ((s.bal o.userId).locked + o.margin) := by
  rw [lock_fst s _ _ hl, bal_set, if_pos rfl]
  rfl

theorem matched_released (hbook : BookOK s) (haccounts : AccountsOK s) (ho : o.Valid)
    (h : TradesOnGrid s o) (hl : (lock s o.userId o.margin).2 = true) (v : String) :
    ReleasedIn (lock s o.userId o.margin).1 v
      (((fillsOf s o).map (ownLeg v)).sum + ((fillsOf s o).map (takerLeg o v)).sum)
      (matched s e o).state := by
  have hlocked : AccountsOK (lock s o.userId o.margin).1 :=
    lock_accounts (accountOK_rules s.market.maintenanceMarginRate) haccounts trivial hl
  unfold ReleasedIn
  rw [matched_bal, matched_pos]
  exact settleAll_released e (m := matchStart _ o) hlocked (filled_legs hbook ho h.fills) v

/-- What an order that is done with leaves locked. -/
theorem margin_settled (hbook : BookOK s) (haccounts : AccountsOK s) (ho : o.Valid)
    (h : TradesOnGrid s o) (hl : (lock s o.userId o.margin).2 = true)
    (hstatus : (settleRemainder e o (matched s e o)).2.2 = .FILLED ∨
      (settleRemainder e o (matched s e o)).2.2 = .CANCELLED) :
    ((placedState s e o).bal o.userId).locked ≤ max 0 ((s.bal o.userId).locked +
      (((placedState s e o).pos o.userId).margin - (s.pos o.userId).margin) - ownFillMargin s o +
        1e-8 * (fillsOf s o).length) := by
  obtain ⟨hfilled, -, hcancelled⟩ := h.status (e := e) ho hbook
  have hlock := locked_lock hl
  have hstart := pos_lock s o.userId o.margin o.userId
  rcases hstatus with hstatus | hstatus
  · -- all is traded: what the fills bring is the margin of the order
    have hall := hfilled.mp hstatus
    rw [placed_of_filled e fun hr => (h.live_iff ho).mp hr hall]
    have hreleased := (matched_released e hbook haccounts ho h hl o.userId).locked_le
    rw [hlock, hstart] at hreleased
    have hlegs := takerLegs_ge (o := o) (fillsOf s o)
    rw [hall, marginPerUnit, mul_div_cancel₀ _ ho.2.2.1.ne'] at hlegs
    have hround := q_le_add ((s.bal o.userId).locked + o.margin)
    have hsome : (1 : ℚ) ≤ (fillsOf s o).length := by
      have hne := (traded_pos_iff (o := o) hbook).mp (hall ▸ ho.2.2.1)
      exact_mod_cast List.length_pos_iff.mpr hne
    have hstep : halfStep = 0.5e-8 := by norm_num [halfStep, SCALE]
    rw [hstep] at hlegs hround
    refine hreleased.trans (max_le_max le_rfl ?_)
    unfold ownFillMargin
    linarith
  · -- nothing is traded: what was locked is released
    obtain ⟨hnil, ht, hr⟩ := hcancelled hstatus
    have hremaining := h.remaining (e := e)
    have hbal : (matched s e o).state.bal o.userId = (lock s o.userId o.margin).1.bal o.userId := by
      rw [matched_bal, filledOrder, hnil]
      rfl
    have hpos : (matched s e o).state.pos o.userId = s.pos o.userId := by
      rw [matched_pos, filledOrder, hnil]
      exact hstart
    have hgrid := (haccounts o.userId).locked_grid
    rw [hnil, traded, List.map_nil, List.sum_nil, sub_zero] at hremaining
    rw [placed_of_refunded e ht hr, hremaining, marginPerUnit, mul_div_cancel₀ _ ho.2.2.1.ne',
      release_eq, bal_set, if_pos rfl, hbal, ownFillMargin, hnil]
    rw [release_locked_eq (by rw [hlock]; exact grid_q _) (q_nonneg ho.2.2.2.2.2.le) (grid_q _),
      hlock, q_grid_add hgrid, add_sub_cancel_right]
    refine max_le_max le_rfl (le_of_eq ?_)
    show _ = (s.bal o.userId).locked + (((matched s e o).state.pos o.userId).margin - _) - _ + _
    rw [hpos]
    simp

end Settled

/-! Whole runs -/

/-- The event, if it is an order that is accepted, trades on the grid. -/
def PlacesOnGrid (s : EngineState) (x : EngineInputEvent × StreamId) : Prop :=
  ∀ o ∈ acceptedOrder s x.1, TradesOnGrid s o

instance (s : EngineState) (x : EngineInputEvent × StreamId) : Decidable (PlacesOnGrid s x) :=
  inferInstanceAs (Decidable (∀ _ ∈ _, _))

/-- The report `r` says what the command `x` did with the order `o`. -/
structure ReportRight (s : EngineState) (x : EngineInputEvent × StreamId) (o : PlaceOrder)
    (r : OrderAccepted) : Prop where
  order : r.orderId = o.orderId ∧ r.userId = o.userId
  filled : r.filledQuantity =
    tradedIn (trades ((process s x.1 x.2).2.map EngineOutputEvent.payload))
  whole : r.filledQuantity + r.remainingQuantity = o.quantity
  all_traded : r.status = .FILLED ↔
    tradedIn (trades ((process s x.1 x.2).2.map EngineOutputEvent.payload)) = o.quantity
  untouched : r.status = .OPEN ↔
    trades ((process s x.1 x.2).2.map EngineOutputEvent.payload) = [] ∧
      ∃ y ∈ (process s x.1 x.2).1.resting, y.orderId = o.orderId ∧ s.seq < y.seq
  unlocked : r.status = .FILLED ∨ r.status = .CANCELLED →
    ((process s x.1 x.2).1.bal o.userId).locked ≤ max 0 ((s.bal o.userId).locked +
      (((process s x.1 x.2).1.pos o.userId).margin - (s.pos o.userId).margin) - ownFillMargin s o +
        1e-8 * (trades ((process s x.1 x.2).2.map EngineOutputEvent.payload)).length)

/-- The last report of an accepted order is about the order itself, and right. -/
def TakerReported (s : EngineState) (x : EngineInputEvent × StreamId) : Prop :=
  ∀ o ∈ acceptedOrder s x.1, ∃ r,
    (reports ((process s x.1 x.2).2.map EngineOutputEvent.payload)).getLast? = some r ∧
      ReportRight s x o r

section Step

variable {s : EngineState} {e : EngineInputEvent} {o : PlaceOrder}

theorem Accepted.lastReport (hacc : Accepted s e o) (id : StreamId) :
    (reports ((process s e id).2.map EngineOutputEvent.payload)).getLast? =
      some (takerReported o (matched s e.toEnvelopeMeta o)
        (settleRemainder e.toEnvelopeMeta o (matched s e.toEnvelopeMeta o)).2.2) := by
  rw [hacc.payloads, placeAccepted_reports, List.getLast?_concat]

theorem Accepted.tradedIn_eq (hacc : Accepted s e o) (id : StreamId) :
    tradedIn (trades ((process s e id).2.map EngineOutputEvent.payload)) =
      traded (fillsOf s o) := by
  rw [hacc.newTrades, tradedIn, map_numbered (k := Prod.snd) fun _ _ => rfl]
  rfl

theorem report_right (hbook : BookOK s) (haccounts : AccountsOK s) (he : engineInputEventSchema e)
    (hacc : Accepted s e o) (h : TradesOnGrid s o) (id : StreamId) :
    ReportRight s (e, id) o (takerReported o (matched s e.toEnvelopeMeta o)
      (settleRemainder e.toEnvelopeMeta o (matched s e.toEnvelopeMeta o)).2.2) := by
  have ho := hacc.valid he
  obtain ⟨hfilled, hopen, -⟩ := h.status (e := e.toEnvelopeMeta) ho hbook
  have hnil : trades ((process s e id).2.map EngineOutputEvent.payload) = [] ↔ fillsOf s o = [] := by
    rw [hacc.newTrades, List.mapIdx_eq_nil_iff]
  have hlength : (trades ((process s e id).2.map EngineOutputEvent.payload)).length =
      (fillsOf s o).length := by
    rw [hacc.newTrades, List.length_mapIdx]
  refine ⟨⟨rfl, rfl⟩, ?_, ?_, ?_, ?_, ?_⟩
  · rw [hacc.tradedIn_eq]
    exact h.filled
  · show q (o.quantity - (matched s e.toEnvelopeMeta o).remaining) + _ = _
    rw [h.filled, takerReported, h.remaining]
    ring
  · rw [hacc.tradedIn_eq]
    exact hfilled
  · rw [hnil, rests_iff hbook hacc]
    exact hopen
  · intro hstatus
    obtain ⟨t, hsame, hcore⟩ := hacc.state id
    dsimp only
    rw [hlength, hcore.bal, hcore.pos, hsame.bal, hsame.pos]
    exact margin_settled e.toEnvelopeMeta hbook haccounts ho h hacc.funds hstatus

/-- Where the report is right, the order is not too small, and on the grid if it trades. -/
theorem onGrid_of_right (hacc : Accepted s e o) (he : engineInputEventSchema e) (id : StreamId)
    {r : OrderAccepted}
    (hlast : (reports ((process s e id).2.map EngineOutputEvent.payload)).getLast? = some r)
    (hr : ReportRight s (e, id) o r) :
    o.quantity > 1e-9 ∧ (queueOf s o ≠ [] → Grid o.quantity) := by
  obtain rfl := Option.some.inj ((hacc.lastReport id).symm.trans hlast)
  have hremaining := matched_remaining s e.toEnvelopeMeta o
  have hlarge : o.quantity > 1e-9 := by
    by_contra hsmall
    -- nothing is traded, and yet the order is reported as filled
    rw [leftover_of_le hsmall] at hremaining
    have hall := hr.all_traded.mp (by
      show (settleRemainder _ o _).2.2 = _
      unfold settleRemainder
      rw [hremaining, if_neg fun h => hsmall h.2, if_neg fun h => hsmall h.2])
    rw [hacc.tradedIn_eq, fillsOf, hits_of_le hsmall] at hall
    exact (hacc.valid he).2.2.1.ne hall
  refine ⟨hlarge, fun hq => ?_⟩
  have hgrid : Grid (matched s e.toEnvelopeMeta o).remaining := by
    rw [hremaining]
    unfold queueOf at hq
    obtain ⟨x, xs, hxs⟩ := List.exists_cons_of_ne_nil hq
    rw [hxs, leftover, if_pos hlarge]
    exact leftover_grid _ (grid_q _)
  rw [← hr.whole]
  exact (grid_q _).add hgrid

end Step

/-- In every run whose orders trade on the grid, every report on an accepted order is
right. -/
theorem taker_report_right (market : MarketConfig) {evs : List (EngineInputEvent × StreamId)}
    (hevs : RunOf engineInputEventSchema evs)
    (hgrid : Along advance PlacesOnGrid (createState market) evs) :
    Along advance TakerReported (createState market) evs := by
  have hstart : AccountsOK (createState market) := fun _ =>
    ⟨grid_zero, grid_zero, le_rfl, grid_zero, fun _ => rfl⟩
  have hrun : ∀ s : EngineState, BookOK s → KeysOK s → AccountsOK s →
      Along advance PlacesOnGrid s evs → Along advance TakerReported s evs := by
    clear hgrid
    induction evs with
    | nil => exact fun _ _ _ _ _ => trivial
    | cons x xs ih =>
      intro s hbook hkeys haccounts hgrid
      have hx := hevs x List.mem_cons_self
      obtain ⟨hstep, hrest⟩ := (along_cons _ s x xs).mp hgrid
      refine (along_cons _ s x xs).mpr ⟨fun o ho => ?_, ?_⟩
      · have hacc := acceptedOrder_eq_some.mp ho
        exact ⟨_, hacc.lastReport x.2, report_right hbook haccounts hx hacc (hstep o ho) x.2⟩
      · refine ih (fun y hy => hevs y (List.mem_cons_of_mem _ hy)) _ (bookOK_process hbook hx x.2)
          (keysOK_step hkeys x.1 x.2) ?_ hrest
        refine process_accounts (accountOK_rules _)
          (fun h => ⟨h.locked_grid, h.margin_grid, h.margin_nonneg, h.size_grid, h.flat_margin⟩)
          haccounts hkeys hbook hx (fun o hacc => ⟨trivial, ?_⟩) x.2
        exact filled_legs hbook (hacc.valid hx) (hstep o (acceptedOrder_eq_some.mpr hacc)).fills
  exact hrun _ (bookOK_createState market) (keysOK_createState market) hstart hgrid

open Fixture in
/-- A bid through a whole maker and into a maker of two thirds, and a market order that
meets nobody. -/
theorem taker_report_right_thirds :
    Along advance TakerReported (createState MARKET) (numbered
      [user "m" 1000000, user "t" 1000000, place "m" "a1" .Ask .LIMIT 100 2 1 200,
        place "m" "a2" .Ask .LIMIT 101 (2 / 3) 1 101, place "t" "b1" .Bid .LIMIT 101 2.5 1 300,
        place "t" "c1" .Ask .MARKET 0 1 1 100]) :=
  taker_report_right MARKET (by decide +kernel) (by decide +kernel)

open Fixture in
/-- A limit order below the threshold of the loops: nothing is traded and nothing rests, but
it is reported as filled, and its margin of 100 stays locked. -/
theorem taker_report_wrong_tiny :
    let s := (run (createState MARKET) (numbered [user "t" 1000000])).1
    let x : EngineInputEvent × StreamId := (place "t" "b1" .Bid .LIMIT 100 5e-10 1 100, ⟨2, 0⟩)
    let r := process s x.1 x.2
    Reachable engineInputEventSchema MARKET s ∧ engineInputEventSchema x.1 ∧
      (acceptedOrder s x.1).isSome ∧
      reports (r.2.map EngineOutputEvent.payload) = [⟨"b1", "t", .FILLED, 0, 5e-10, 0⟩] ∧
      trades (r.2.map EngineOutputEvent.payload) = [] ∧ r.1.resting = [] ∧
      (r.1.bal "t").locked = 100 ∧ ¬ TakerReported s x := by
  intro s x r
  have hreports : reports (r.2.map EngineOutputEvent.payload) =
      [⟨"b1", "t", .FILLED, 0, 5e-10, 0⟩] := by decide +kernel
  have htrades : trades (r.2.map EngineOutputEvent.payload) = [] := by decide +kernel
  have hacc : acceptedOrder s x.1 = some ⟨"t", "b1", .Bid, .LIMIT, 5e-10, 100, 1, 100⟩ := by
    decide +kernel
  refine ⟨reachable_run .init (by decide +kernel), by decide +kernel, by rw [hacc]; rfl, hreports,
    htrades, by decide +kernel, by decide +kernel, fun h => ?_⟩
  obtain ⟨report, hlast, hright⟩ := h _ hacc
  rw [hreports] at hlast
  obtain rfl := Option.some.inj hlast
  have hall := hright.all_traded.mp rfl
  rw [htrades] at hall
  exact absurd hall (by decide +kernel)

end Engine

end Perps
