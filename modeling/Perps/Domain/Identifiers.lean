import Perps.Domain.Fills
import Perps.Domain.Sweep

/-! What identifies the outputs of a run: every event and every trade takes its
number from the sequence counter, which only grows, so no id is given twice. -/

namespace Perps

open Lib

namespace Engine

/-! What no handler touches -/

def bookkeeping (s : EngineState) : MarketConfig × List String × ℕ × StreamId :=
  (s.market, s.appliedCommandIds, s.appliedCount, s.lastInputId)

theorem setLevels_bookkeeping (s : EngineState) (side : Side) (ls : List PriceLevel) :
    bookkeeping (setLevels s side ls) = bookkeeping s := by cases side <;> rfl

theorem settleAll_bookkeeping (e : EnvelopeMeta) (o : PlaceOrder) (m : Matching)
    (os : List RestingOrder) :
    bookkeeping (settleAll e o m os).state = bookkeeping m.state := by
  induction os generalizing m with
  | nil => rfl
  | cons x xs ih =>
    refine (ih (settleFill e o m x)).trans ?_
    simp only [settleFill, nextSeq, applyFill_eq]
    rfl

theorem matched_bookkeeping {s : EngineState} (e : EnvelopeMeta) {o : PlaceOrder}
    (hl : (lock s o.userId o.margin).2 = true) :
    bookkeeping (matched s e o).state = bookkeeping s := by
  rw [(matched_spec s e o).state]
  refine (setLevels_bookkeeping _ _ _).trans ((settleAll_bookkeeping e o _ _).trans ?_)
  show bookkeeping (lock s o.userId o.margin).1 = _
  rw [lock_fst s o.userId o.margin hl]
  rfl

/-- The counter counts the fills and, if the order rests, the order. -/
theorem placedState_bookkeeping {s : EngineState} (e : EnvelopeMeta) {o : PlaceOrder}
    (hl : (lock s o.userId o.margin).2 = true) :
    bookkeeping (placedState s e o) = bookkeeping s ∧
      s.seq + (fillsOf s o).length ≤ (placedState s e o).seq := by
  have hm := matched_bookkeeping e hl
  have hseq := matched_seq s e o
  have hrem := settleRemainder_cases e o (matched s e o)
  show bookkeeping (settleRemainder e o (matched s e o)).1 = _ ∧
    _ ≤ (settleRemainder e o (matched s e o)).1.seq
  generalize settleRemainder e o (matched s e o) = r at hrem
  cases hrem with
  | rests =>
    refine ⟨(setLevels_bookkeeping _ _ _).trans hm, ?_⟩
    rw [insertResting_seq, ← hseq]
    exact Nat.le_succ _
  | refunded =>
    rw [release_eq]
    exact ⟨hm, hseq.ge⟩
  | filled => exact ⟨hm, hseq.ge⟩

theorem effect_bookkeeping {s t : EngineState} {e : EngineInputEvent} (heff : Effect s e t) :
    bookkeeping t = bookkeeping s ∧ s.seq ≤ t.seq := by
  cases heff with
  | unchanged => exact ⟨rfl, le_rfl⟩
  | opened hsame =>
    rw [hsame.core]
    exact ⟨rfl, le_rfl⟩
  | credited u amount _ _ hsame =>
    rw [hsame.core, credit_eq]
    exact ⟨rfl, le_rfl⟩
  | placed o _ _ hl hsame =>
    obtain ⟨hplaced, hseq⟩ := placedState_bookkeeping e.toEnvelopeMeta hl
    rw [hsame.core]
    exact ⟨hplaced, (Nat.le_add_right _ _).trans hseq⟩
  | cancelled c level removed _ _ _ _ hsame =>
    rw [hsame.core, release_eq]
    exact ⟨setLevels_bookkeeping _ _ _, (setLevels_seq _ _ _).ge⟩
  | marked p _ _ hsame =>
    rw [hsame.core, markedState, liquidationSweep_core]
    exact ⟨rfl, le_rfl⟩

theorem dispatch_bookkeeping (s : EngineState) (e : EngineInputEvent) :
    bookkeeping (dispatch s e).1 = bookkeeping s ∧ s.seq ≤ (dispatch s e).1.seq := by
  rcases dispatch_effect_or_credit s e with heff | ⟨u, amount, hsame⟩
  · exact effect_bookkeeping heff
  · rw [hsame.core, credit_eq]
    exact ⟨rfl, le_rfl⟩

theorem reduce_seq (s : EngineState) (e : EngineInputEvent) : s.seq ≤ (reduce s e).1.seq := by
  by_cases ha : alreadyApplied s e = true
  · rw [reduce_of_applied ha]
  · rw [reduce_of_new ha]
    exact (dispatch_bookkeeping s e).2

theorem process_market (s : EngineState) (e : EngineInputEvent) (id : StreamId) :
    (process s e id).1.market = s.market := by
  rw [process_fst]
  by_cases ha : alreadyApplied s e = true
  · rw [reduce_of_applied ha]
  · rw [reduce_of_new ha]
    exact congrArg Prod.fst (dispatch_bookkeeping s e).1

/-! Numbers -/

/-- The ids are numbered in ascending order, after `a` and up to `b`. -/
def Numbered (f : ℕ → String) (a b : ℕ) (ids : List String) : Prop :=
  ∃ ns : List ℕ, ns.Pairwise (· < ·) ∧ (∀ n ∈ ns, a < n ∧ n ≤ b) ∧ ids = ns.map f

variable {f : ℕ → String} {a b c : ℕ} {ids : List String}

theorem numbered_nil : Numbered f a b [] := ⟨[], .nil, by simp, rfl⟩

theorem Numbered.append {ids' : List String} (h : Numbered f a b ids) (h' : Numbered f b c ids')
    (hab : a ≤ b) (hbc : b ≤ c) : Numbered f a c (ids ++ ids') := by
  obtain ⟨ns, hns, hbound, rfl⟩ := h
  obtain ⟨ms, hms, hbound', rfl⟩ := h'
  refine ⟨ns ++ ms, List.pairwise_append.mpr ⟨hns, hms, ?_⟩, ?_, List.map_append.symm⟩
  · intro n hn m hm
    exact (hbound n hn).2.trans_lt (hbound' m hm).1
  · intro n hn
    rcases List.mem_append.mp hn with hn | hn
    · exact ⟨(hbound n hn).1, (hbound n hn).2.trans hbc⟩
    · exact ⟨hab.trans_lt (hbound' n hn).1, (hbound' n hn).2⟩

theorem Numbered.widen (h : Numbered f a b ids) (hbc : b ≤ c) : Numbered f a c ids := by
  obtain ⟨ns, hns, hbound, hids⟩ := h
  exact ⟨ns, hns, fun n hn => ⟨(hbound n hn).1, (hbound n hn).2.trans hbc⟩, hids⟩

theorem Numbered.nodup (h : Numbered f a b ids) (hf : Function.Injective f) : ids.Nodup := by
  obtain ⟨ns, hns, -, rfl⟩ := h
  exact List.Nodup.map hf (hns.imp fun hlt => hlt.ne)

theorem numbered_range (k : ℕ) : Numbered f a (a + k) ((List.range' (a + 1) k).map f) := by
  refine ⟨_, List.pairwise_lt_range', fun n hn => ?_, rfl⟩
  rw [List.mem_range'_1] at hn
  omega

def eventIdOf (n : ℕ) : String := s!"evt_{n}"

def tradeIdOf (symbol : String) (n : ℕ) : String := s!"{symbol}-{n}"

theorem eventIdOf_injective : Function.Injective eventIdOf := by
  intro m n h
  exact Nat.repr_injective (String.append_right_inj _ |>.mp h)

theorem tradeIdOf_injective (symbol : String) : Function.Injective (tradeIdOf symbol) := by
  intro m n h
  exact Nat.repr_injective (String.append_right_inj _ |>.mp h)

theorem stampAll_eventIds (src : EnvelopeMeta) (s : EngineState) (ds : List DraftOutput) :
    (stampAll src s ds).2.map (fun out => out.eventId) =
      (List.range' (s.seq + 1) ds.length).map eventIdOf := by
  induction ds generalizing s with
  | nil => rfl
  | cons d ds ih =>
    rw [List.length_cons, List.range'_succ, List.map_cons]
    exact congrArg (eventIdOf (s.seq + 1) :: ·) (ih _)

theorem process_eventIds (s : EngineState) (e : EngineInputEvent) (id : StreamId) :
    Numbered eventIdOf s.seq (process s e id).1.seq
      ((process s e id).2.map fun out => out.eventId) := by
  have hids := stampAll_eventIds e.toEnvelopeMeta { (reduce s e).1 with lastInputId := id }
    (reduce s e).2
  rw [process_fst]
  have hrange := numbered_range (f := eventIdOf) (a := (reduce s e).1.seq) (reduce s e).2.length
  have h := (numbered_nil (f := eventIdOf)).append hrange (reduce_seq s e) (Nat.le_add_right _ _)
  exact hids ▸ h

theorem tradeOf_tradeId (s : EngineState) (e : EnvelopeMeta) (o : PlaceOrder)
    (fs : List (RestingOrder × ℚ)) :
    (fs.mapIdx (tradeOf s e o)).map TradeExecuted.tradeId =
      (List.range' (s.seq + 1) fs.length).map (tradeIdOf s.market.symbol) := by
  apply List.ext_getElem
  · simp
  · intro i h h'
    simp only [List.getElem_map, List.getElem_mapIdx, List.getElem_range', tradeOf, tradeIdOf,
      Nat.one_mul]
    rw [Nat.add_right_comm]

theorem process_tradeIds (s : EngineState) (e : EngineInputEvent) (id : StreamId) :
    Numbered (tradeIdOf s.market.symbol) s.seq (process s e id).1.seq
      ((trades ((process s e id).2.map EngineOutputEvent.payload)).map TradeExecuted.tradeId) := by
  by_cases hacc : ∃ o, Accepted s e o
  · obtain ⟨o, hacc⟩ := hacc
    rw [hacc.payloads, placeAccepted_trades, matched_trades, tradeOf_tradeId]
    refine (numbered_range _).widen ?_
    obtain ⟨t, hsame, hcore⟩ := hacc.state id
    refine (placedState_bookkeeping e.toEnvelopeMeta hacc.funds).2.trans ?_
    have hseq : t.seq = (placedState s e.toEnvelopeMeta o).seq := by rw [hsame.core]
    rw [← hseq]
    exact hcore.seq
  · rw [not_exists] at hacc
    rw [trades_of_quiet (process_quiet hacc id)]
    exact numbered_nil

theorem process_seq (s : EngineState) (e : EngineInputEvent) (id : StreamId) :
    s.seq ≤ (process s e id).1.seq := by
  rw [process_fst]
  exact (reduce_seq s e).trans (Nat.le_add_right _ _)

theorem run_seq (s : EngineState) (evs : List (EngineInputEvent × StreamId)) :
    s.seq ≤ (run s evs).1.seq := by
  induction evs generalizing s with
  | nil => exact le_rfl
  | cons x xs ih => exact (process_seq s x.1 x.2).trans (ih _)

/-- No two outputs of a run have the same id. -/
theorem run_eventIds (s : EngineState) (evs : List (EngineInputEvent × StreamId)) :
    Numbered eventIdOf s.seq (run s evs).1.seq ((run s evs).2.map fun out => out.eventId) := by
  induction evs generalizing s with
  | nil => exact numbered_nil
  | cons x xs ih =>
    rw [run_cons, List.map_append]
    exact (process_eventIds s x.1 x.2).append (ih _) (process_seq _ _ _) (run_seq _ _)

/-- No two trades of a run have the same id. -/
theorem run_tradeIds (s : EngineState) (evs : List (EngineInputEvent × StreamId)) :
    Numbered (tradeIdOf s.market.symbol) s.seq (run s evs).1.seq
      ((trades ((run s evs).2.map EngineOutputEvent.payload)).map TradeExecuted.tradeId) := by
  induction evs generalizing s with
  | nil => exact numbered_nil
  | cons x xs ih =>
    rw [run_cons, List.map_append, trades_append, List.map_append]
    have hrest := ih (process s x.1 x.2).1
    rw [process_market] at hrest
    exact (process_tradeIds s x.1 x.2).append hrest (process_seq _ _ _) (run_seq _ _)

end Engine

end Perps
