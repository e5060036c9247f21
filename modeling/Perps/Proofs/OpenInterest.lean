import Perps.Domain.Fills
import Perps.Domain.Ledger
import Perps.Proofs.BookInvariant
import Perps.Proofs.Restore

/-! Open interest: fills move size from one user to another, so that the sizes of
all positions add up to zero; liquidations close one side only. -/

namespace Perps

open Lib

namespace Engine

/-- The sum of the sizes of all positions. -/
def totalSize (s : EngineState) : ℚ := s.positions.sumValues Position.size

theorem size_pos (s : EngineState) (u : String) :
    ((s.positions.get? u).map Position.size).getD 0 = (s.pos u).size := by
  unfold EngineState.pos
  cases s.positions.get? u <;> rfl

/-- The sum sees nothing but the records with their defaults. -/
theorem totalSize_congr {s t : EngineState} (h : ∀ v, t.pos v = s.pos v) :
    totalSize t = totalSize s :=
  OrdMap.sumValues_congr _ fun v => by rw [size_pos, size_pos, h]

theorem totalSize_withAccount (s : EngineState) (u : String) (r : Option Balance × Position) :
    totalSize (s.withAccount u r) = totalSize s - (s.pos u).size + r.2.size := by
  rw [← size_pos]
  exact OrdMap.sumValues_set _ _ _ _

/-- Every size is on the grid. -/
def SizesOK (s : EngineState) : Prop := ∀ u, Grid (s.pos u).size

theorem applyFill_size {s : EngineState} (h : SizesOK s) (u : String) (side : Side) {f : ℚ}
    (hf : Grid f) (price fm lev : ℚ) : SizesOK (applyFill s u side price f fm lev) ∧
      totalSize (applyFill s u side price f fm lev) = totalSize s + signedQty side f := by
  have hsize := fill_size
    (fillLeg_case s.market.maintenanceMarginRate (s.bal u) (s.pos u) side price f fm lev) (h u) hf
  rw [applyFill_eq]
  constructor
  · intro v
    rw [pos_withAccount]
    split_ifs with hv
    · rw [hsize]
      exact (h u).add (signedQty_grid hf side)
    · exact h v
  · rw [totalSize_withAccount, hsize]
    ring

/-- The two legs of a fill cancel out. -/
theorem settleFill_size (e : EnvelopeMeta) {o : PlaceOrder} {m : Matching} (h : SizesOK m.state)
    {x : RestingOrder} (hside : x.side = maker_side o.side) (hr : Grid m.remaining)
    (hx : Grid x.remaining) : SizesOK (settleFill e o m x).state ∧
      totalSize (settleFill e o m x).state = totalSize m.state := by
  have hf := hr.min hx
  obtain ⟨hok, hmaker⟩ := applyFill_size h x.userId x.side hf x.price
    (makerFillMargin x (min m.remaining x.remaining)) x.leverage
  obtain ⟨hok', htaker⟩ := applyFill_size hok o.userId o.side hf x.price
    (takerFillMargin o (min m.remaining x.remaining)) o.leverage
  refine ⟨hok', htaker.trans ?_⟩
  rw [hmaker, hside]
  cases o.side <;> simp [maker_side, signedQty]

theorem settleAll_size (e : EnvelopeMeta) {o : PlaceOrder} {os : List RestingOrder}
    (hside : ∀ x ∈ os, x.side = maker_side o.side) (hx : ∀ x ∈ os, Grid x.remaining)
    {m : Matching} (h : SizesOK m.state) (hr : Grid m.remaining) :
    SizesOK (settleAll e o m os).state ∧
      totalSize (settleAll e o m os).state = totalSize m.state := by
  induction os generalizing m with
  | nil => exact ⟨h, rfl⟩
  | cons x xs ih =>
    obtain ⟨hok, heq⟩ := settleFill_size e h (hside x List.mem_cons_self) hr
      (hx x List.mem_cons_self)
    obtain ⟨hok', heq'⟩ := ih (fun y hy => hside y (List.mem_cons_of_mem _ hy))
      (fun y hy => hx y (List.mem_cons_of_mem _ hy)) (m := settleFill e o m x) hok (grid_q _)
    exact ⟨hok', heq'.trans heq⟩

/-- The invariant: a well-formed book and positions, with quantities on the grid. -/
structure InterestOK (s : EngineState) : Prop where
  book : BookOK s
  keys : KeysOK s
  resting : ∀ x ∈ s.resting, Grid x.remaining
  sizes : SizesOK s

theorem placed_size {s : EngineState} (h : InterestOK s) (e : EnvelopeMeta) {o : PlaceOrder}
    (hQ : Grid o.quantity) : SizesOK (placedState s e o) ∧ totalSize (placedState s e o) = totalSize s := by
  have hmakers : ∀ x ∈ reached s o, x ∈ ordersOf (levelsFor s (maker_side o.side)) := fun x hx =>
    crossing_subset (hits_mem hx)
  have hlock : SizesOK (lock s o.userId o.margin).1 := fun v => by
    rw [pos_lock]
    exact h.sizes v
  have hside : ∀ x ∈ reached s o, x.side = maker_side o.side := fun x hx =>
    ((h.book.side _).order (hmakers x hx)).side_eq
  obtain ⟨hok, heq⟩ := settleAll_size e hside
    (fun x hx => h.resting x (BookOK.resting_of_side s (hmakers x hx)))
    (m := matchStart (lock s o.userId o.margin).1 o) hlock hQ
  have hsizes (v : String) : (placedState s e o).pos v = (filledOrder s e o).state.pos v :=
    pos_placed s e o v
  refine ⟨fun v => ?_, ?_⟩
  · rw [hsizes]
    exact hok v
  · rw [totalSize_congr hsizes]
    exact heq.trans (totalSize_congr fun v => pos_lock s _ _ v)

/-- The size that a price takes out of the positions. -/
def doomedSize (s : EngineState) (price : ℚ) : ℚ :=
  ((doomed s price).map fun x => x.2.size).sum

theorem sum_ite_zero {α : Type} (p : α → Bool) (f : α → ℚ) (xs : List α) :
    (xs.map fun x => if p x then 0 else f x).sum = (xs.map f).sum - ((xs.filter p).map f).sum := by
  induction xs with
  | nil => simp
  | cons x xs ih =>
    rw [List.map_cons, List.sum_cons, ih, List.map_cons, List.sum_cons, List.filter_cons]
    split_ifs
    · rw [List.map_cons, List.sum_cons]
      ring
    · ring

/-- A sweep takes the size of the positions it liquidates away. -/
theorem liquidationSweep_size {s : EngineState} (hkeys : KeysOK s) (price : ℚ) :
    totalSize (liquidationSweep s price).1 = totalSize s - doomedSize s price := by
  have hlookup (v : String) : (liquidationSweep s price).1.positions.get? v =
      (s.positions.mapValues fun p =>
        if underwater price p then liquidatedPos price p else p).get? v := by
    have hrec := congrArg Prod.snd (liquidationSweep_records hkeys price v)
    rw [OrdMap.get?_mapValues]
    refine hrec.trans ?_
    unfold records
    cases s.positions.get? v with
    | none => rfl
    | some p => cases hu : underwater price p <;> simp [Option.filter, hu]
  have hsize (p : Position) : (if underwater price p then liquidatedPos price p else p).size =
      if underwater price p then 0 else p.size := by
    split_ifs <;> rfl
  have hsum := OrdMap.sumValues_congr Position.size fun v =>
    congrArg (fun r => (r.map Position.size).getD 0) (hlookup v)
  unfold totalSize
  rw [hsum, OrdMap.sumValues_mapValues]
  simp only [hsize]
  exact sum_ite_zero _ _ _

theorem marked_size {s : EngineState} (h : InterestOK s) (p : IndexPriceUpdated) :
    SizesOK (markedState s p) ∧ totalSize (markedState s p) = totalSize s - doomedSize s p.price := by
  have hmark (v : String) := pos_markToMarket { s with lastObserverSeq := p.observerSeq } p.price v
  have hkeys := keysOK_marked h.keys p
  constructor
  · intro v
    unfold markedState
    rcases liquidationSweep_account hkeys p.price v with ⟨-, -, hp⟩ | ⟨-, hp⟩
    · rw [hp]
      exact grid_zero
    · rw [hp, hmark]
      exact h.sizes v
  · have htotal : totalSize (markToMarket { s with lastObserverSeq := p.observerSeq } p.price) =
        totalSize s := OrdMap.sumValues_mapValues _ _ _
    have hdoomed : doomedSize (markToMarket { s with lastObserverSeq := p.observerSeq } p.price)
        p.price = doomedSize s p.price := by
      unfold doomedSize
      rw [doomed_markToMarket, List.map_map]
      rfl
    unfold markedState
    rw [liquidationSweep_size hkeys, htotal, hdoomed]

/-- The size that an event liquidates. -/
def liquidatedSize (s : EngineState) (e : EngineInputEvent) : ℚ :=
  match e.payload with
  | .indexPriceUpdated p => if (p.observerSeq : ℤ) ≤ s.lastObserverSeq then 0 else doomedSize s p.price
  | _ => 0

/-- The size that the applied events of a run liquidate. -/
def sizeLiquidated (s : EngineState) : List (EngineInputEvent × StreamId) → ℚ
  | [] => 0
  | x :: xs =>
    (if alreadyApplied s x.1 then 0 else liquidatedSize s x.1) +
      sizeLiquidated (process s x.1 x.2).1 xs

theorem InterestOK.congr {s t : EngineState} (h : InterestOK s) (hbook : BookOK t)
    (hpos : ∀ v, t.pos v = s.pos v) (hrest : ∀ x ∈ t.resting, x ∈ s.resting) : InterestOK t where
  book := hbook
  keys := keysOK_of_pos h.keys hpos
  resting x hx := h.resting x (hrest x hx)
  sizes v := by
    rw [hpos]
    exact h.sizes v

/-- An event that is not a price keeps the invariant and the sum. -/
theorem effect_size {s t : EngineState} {e : EngineInputEvent} (he : QuantityOnGrid e)
    (hprice : ∀ p, e.payload ≠ .indexPriceUpdated p) (heff : Effect s e t) (h : InterestOK s) :
    InterestOK t ∧ totalSize t = totalSize s := by
  have hbook := bookOK_effect he.1 heff h.book
  have hkeys := keysOK_effect heff h.keys
  have hrest {a b : EngineState} (hsame : SameAccounts a b) : b.resting = a.resting := by
    rw [hsame.core]
    rfl
  cases heff with
  | unchanged => exact ⟨h, rfl⟩
  | opened hsame =>
    exact ⟨h.congr hbook hsame.pos fun x hx => hrest hsame ▸ hx, totalSize_congr hsame.pos⟩
  | credited u amount _ _ hsame =>
    have hpos (v : String) : t.pos v = s.pos v := by
      rw [hsame.pos, credit_eq]
      rfl
    refine ⟨h.congr hbook hpos fun x hx => ?_, totalSize_congr hpos⟩
    rw [hrest hsame, credit_eq] at hx
    exact hx
  | placed o hp _ _ hsame =>
    have hQ := he.2 o hp
    obtain ⟨hsizes, htotal⟩ := placed_size h e.toEnvelopeMeta hQ
    refine ⟨⟨hbook, hkeys, ?_, fun v => ?_⟩, (totalSize_congr hsame.pos).trans htotal⟩
    · rw [hrest hsame]
      exact placed_resting_grid e.toEnvelopeMeta o h.book h.resting hQ
    · rw [hsame.pos]
      exact hsizes v
  | cancelled c level removed _ hlevel hremoved _ hsame =>
    have hpos (v : String) : t.pos v = s.pos v := by
      rw [hsame.pos, release_eq]
      exact pos_setLevels _ _ _ v
    refine ⟨h.congr hbook hpos fun x hx => ?_, totalSize_congr hpos⟩
    rw [hrest hsame, release_eq] at hx
    exact (withoutOrder_resting hlevel hremoved).mem_iff.mpr (List.mem_cons_of_mem _ hx)
  | marked p hp _ _ => exact absurd hp (hprice p)

theorem dispatch_size {s : EngineState} {e : EngineInputEvent} (he : QuantityOnGrid e)
    (h : InterestOK s) : InterestOK (dispatch s e).1 ∧
      totalSize (dispatch s e).1 = totalSize s - liquidatedSize s e := by
  have heff := dispatch_effect s e he.1
  by_cases hprice : ∃ p, e.payload = .indexPriceUpdated p
  · obtain ⟨p, hp⟩ := hprice
    have hbook := bookOK_effect he.1 heff h.book
    have hkeys := keysOK_effect heff h.keys
    unfold dispatch liquidatedSize at *
    rw [hp] at hbook hkeys ⊢
    dsimp only at hbook hkeys ⊢
    unfold onIndexPrice at *
    split_ifs at hbook hkeys ⊢
    · exact ⟨h, (sub_zero _).symm⟩
    · have hsame := liquidationDrafts_same (liquidationSweep (markToMarket
        { s with lastObserverSeq := p.observerSeq } p.price) p.price).2 (markedState s p, [])
      obtain ⟨hsizes, htotal⟩ := marked_size h p
      refine ⟨⟨hbook, hkeys, ?_, fun v => ?_⟩, (totalSize_congr hsame.pos).trans htotal⟩
      · have hrest : (markedState s p).resting = s.resting := by
          rw [markedState, liquidationSweep_core]
          rfl
        intro x hx
        refine h.resting x (hrest ▸ ?_)
        have hcore : ((liquidationSweep (markToMarket
            { s with lastObserverSeq := p.observerSeq } p.price) p.price).2.foldl
              liquidationDrafts (markedState s p, [])).1.resting = (markedState s p).resting := by
          rw [hsame.core]
          rfl
        exact hcore ▸ hx
      · exact hsame.pos v ▸ hsizes v
  · have hzero : liquidatedSize s e = 0 := by
      unfold liquidatedSize
      cases hp : e.payload with
      | indexPriceUpdated p => exact absurd ⟨p, hp⟩ hprice
      | _ => rfl
    rw [hzero, sub_zero]
    exact effect_size he (fun p hp => hprice ⟨p, hp⟩) heff h

theorem process_size {s : EngineState} {e : EngineInputEvent} (he : QuantityOnGrid e)
    (h : InterestOK s) (id : StreamId) : InterestOK (process s e id).1 ∧
      totalSize (process s e id).1 =
        totalSize s - if alreadyApplied s e then 0 else liquidatedSize s e := by
  by_cases ha : alreadyApplied s e = true
  · rw [process_applied ha, if_pos ha, sub_zero]
    exact ⟨⟨h.book.congr rfl rfl le_rfl, h.keys, h.resting, h.sizes⟩, rfl⟩
  · have hcore := process_new ha id
    obtain ⟨hok, htotal⟩ := dispatch_size he h
    rw [if_neg ha]
    refine ⟨hok.congr (sameCore_book hcore hok.book) hcore.pos fun x hx => ?_,
      (totalSize_congr hcore.pos).trans htotal⟩
    rwa [EngineState.resting, hcore.bids, hcore.asks] at hx

theorem run_size {s : EngineState} (h : InterestOK s) {evs : List (EngineInputEvent × StreamId)}
    (hevs : RunOf QuantityOnGrid evs) :
    totalSize (run s evs).1 = totalSize s - sizeLiquidated s evs := by
  induction evs generalizing s with
  | nil => simp [run, sizeLiquidated]
  | cons x xs ih =>
    obtain ⟨hok, htotal⟩ := process_size (hevs x List.mem_cons_self) h x.2
    have ih := ih hok fun y hy => hevs y (List.mem_cons_of_mem _ hy)
    show totalSize (run (process s x.1 x.2).1 xs).1 = _
    rw [ih, htotal, sizeLiquidated]
    ring

/-! Without liquidations -/

/-- No output reports a liquidation. -/
def NoLiquidation (outs : List EngineOutputEvent) : Prop :=
  ∀ out ∈ outs, ∀ l, out.payload ≠ .positionLiquidated l

theorem liquidationDrafts_mem (liqs : List PositionLiquidated)
    (acc : EngineState × List DraftOutput) :
    acc.2 ⊆ (liqs.foldl liquidationDrafts acc).2 ∧
      ∀ l ∈ liqs, DraftOutput.positionLiquidated l ∈ (liqs.foldl liquidationDrafts acc).2 := by
  induction liqs generalizing acc with
  | nil => exact ⟨List.Subset.refl _, by simp⟩
  | cons l ls ih =>
    obtain ⟨hsub, hmem⟩ := ih (liquidationDrafts acc l)
    have hl : DraftOutput.positionLiquidated l ∈ (liquidationDrafts acc l).2 := by
      simp [liquidationDrafts]
    refine ⟨fun x hx => hsub (List.mem_append_left _ hx), fun k hk => ?_⟩
    rcases List.mem_cons.mp hk with rfl | hk
    · exact hsub hl
    · exact hmem k hk

theorem liquidatedSize_of_quiet {s : EngineState} {e : EngineInputEvent}
    (h : ∀ l, DraftOutput.positionLiquidated l ∉ (dispatch s e).2) : liquidatedSize s e = 0 := by
  unfold liquidatedSize
  unfold dispatch at h
  cases hp : e.payload with
  | indexPriceUpdated p =>
    rw [hp] at h
    dsimp only at h ⊢
    unfold onIndexPrice at h
    split_ifs at h ⊢
    · rfl
    · have hnone : doomed s p.price = [] := by
        by_contra hne
        obtain ⟨x, hx⟩ := List.exists_mem_of_ne_nil _ hne
        have hx' := List.mem_map_of_mem (f := fun x => (x.1, markPosition p.price x.2)) hx
        have hmem : liquidationOf p.price (markPosition p.price x.2) ∈ (liquidationSweep
            (markToMarket { s with lastObserverSeq := p.observerSeq } p.price) p.price).2 := by
          rw [liquidationSweep_snd, doomed_markToMarket]
          exact List.mem_map.mpr ⟨_, hx', rfl⟩
        exact h _ ((liquidationDrafts_mem _ _).2 _ hmem)
      unfold doomedSize
      rw [hnone]
      rfl
  | _ => rfl

theorem sizeLiquidated_of_quiet {s : EngineState} {evs : List (EngineInputEvent × StreamId)}
    (h : NoLiquidation (run s evs).2) : sizeLiquidated s evs = 0 := by
  induction evs generalizing s with
  | nil => rfl
  | cons x xs ih =>
    have hsplit : (run s (x :: xs)).2 =
        (process s x.1 x.2).2 ++ (run (process s x.1 x.2).1 xs).2 := rfl
    rw [hsplit] at h
    have hrest := ih fun out hout => h out (List.mem_append_right _ hout)
    rw [sizeLiquidated, hrest, add_zero]
    split_ifs with ha
    · rfl
    · apply liquidatedSize_of_quiet
      intro l hl
      have hpay := process_payloads s x.1 x.2
      rw [reduce_of_new ha] at hpay
      rw [← hpay] at hl
      obtain ⟨out, hout, heq⟩ := List.mem_map.mp hl
      exact h out (List.mem_append_left _ hout) l heq

theorem interestOK_createState (market : MarketConfig) : InterestOK (createState market) :=
  ⟨bookOK_createState market, keysOK_createState market, by simp [createState, EngineState.resting],
    fun _ => grid_zero⟩

/-- After every run from the start, the sizes of all positions add up to what the
liquidations have taken out of them; to zero, if there was none. -/
theorem sizes_balance (market : MarketConfig) {evs : List (EngineInputEvent × StreamId)}
    (hevs : RunOf QuantityOnGrid evs) :
    let r := run (createState market) evs
    totalSize r.1 + sizeLiquidated (createState market) evs = 0 ∧
      (NoLiquidation r.2 → totalSize r.1 = 0) := by
  have h := run_size (interestOK_createState market) hevs
  have h0 : totalSize (createState market) = 0 := rfl
  rw [h0, zero_sub] at h
  refine ⟨?_, fun hquiet => ?_⟩
  · rw [h, neg_add_cancel]
  · rw [h, sizeLiquidated_of_quiet hquiet, neg_zero]

open Fixture in
/-- A self-trade, a reduction and a liquidation of the long side. -/
theorem sizes_balance_liquidated :
    let evs := numbered [user "m" 1000000, user "t" 1000000,
      place "m" "a1" .Ask .LIMIT 1000 3 10 300, place "t" "b1" .Bid .LIMIT 1000 2 10 200,
      place "t" "b2" .Bid .LIMIT 990 1 10 100, place "t" "c1" .Ask .MARKET 0 1 10 100,
      evt none (.indexPriceUpdated ⟨"BTCUSDT", 500, 1, 0⟩)]
    let r := run (createState MARKET) evs
    totalSize r.1 + sizeLiquidated (createState MARKET) evs = 0 ∧
      (NoLiquidation r.2 → totalSize r.1 = 0) :=
  sizes_balance MARKET (by decide +kernel)

open Fixture in
/-- A long is liquidated, the short it traded with stays open. -/
theorem sizes_unbalanced :
    let evs := numbered [user "m" 1000000, user "t" 1000000,
      place "m" "a1" .Ask .LIMIT 1000 2 10 200, place "t" "b1" .Bid .LIMIT 1000 2 10 200,
      evt none (.indexPriceUpdated ⟨"BTCUSDT", 500, 1, 0⟩)]
    RunOf QuantityOnGrid evs ∧ totalSize (run (createState MARKET) evs).1 = -2 := by
  decide +kernel

end Engine

end Perps
