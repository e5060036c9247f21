import Perps.Proofs.BookDeltas

/-! A client that listens to the deltas, reads the depth of the book at some moment and
then applies all deltas it has heard, those from before the read among them, holds the
book of the engine wherever the depth reached or a delta spoke. -/

namespace Perps

open Lib

/-- What a depth snapshot shows of a side. -/
def BookSnapshot.shown (book : BookSnapshot) : Side → List (ℚ × ℚ)
  | .Bid => book.bids
  | .Ask => book.asks

/-- The entries that set a side to what is shown. -/
def sideEntries (book : BookSnapshot) (side : Side) : List ((Side × ℚ) × Option ℚ) :=
  (book.shown side).map fun x => ((side, x.1), some x.2)

/-- The book of a client that has read the depth. -/
def ofDepth (book : BookSnapshot) : OrdMap (Side × ℚ) ℚ :=
  applyFeed OrdMap.empty (sideEntries book .Bid ++ sideEntries book .Ask)

/-- The depth tells whether there is a level at the price: it has room for more levels, or
it shows one that is not better. -/
def Reaches (levels : ℕ) (book : BookSnapshot) (side : Side) (price : ℚ) : Prop :=
  (book.shown side).length < levels ∨ ∃ x ∈ book.shown side, ¬ betterFirst side x.1 price = true

theorem shown_snapshot (s : EngineState) (n : ℕ) (side : Side) :
    (snapshot s n).shown side =
      ((levelsFor s side).take n).map fun l => (l.price, levelQuantity l) := by
  cases side <;> rfl

theorem quantityAt_take {side : Side} {levels : List PriceLevel} (h : SideOK side levels) {n : ℕ}
    {p : ℚ} (hreach : (levels.take n).length < n ∨
      ∃ l ∈ levels.take n, ¬ betterFirst side l.price p = true) :
    quantityAt (levels.take n) p = quantityAt levels p := by
  have hrest : quantityAt (levels.drop n) p = none := by
    refine quantityAt_eq_none fun m hm heq => ?_
    rcases hreach with hshort | ⟨l, hl, hworse⟩
    · have hlen : levels.length ≤ n := by
        rw [List.length_take] at hshort
        omega
      rw [List.drop_of_length_le hlen] at hm
      cases hm
    · have hsorted := h.sorted
      rw [← List.take_append_drop n levels, List.pairwise_append] at hsorted
      exact hworse (heq ▸ hsorted.2.2 l hl m hm)
  conv_rhs => rw [← List.take_append_drop n levels, quantityAt_append, hrest]
  exact (Option.or_none).symm

theorem get?_sideEntries {side : Side} {levels : List PriceLevel} (h : SideOK side levels)
    (m : OrdMap (Side × ℚ) ℚ) (p : ℚ) :
    (applyFeed m (levels.map fun l => ((side, l.price), some (levelQuantity l)))).get? (side, p) =
      (quantityAt levels p).or (m.get? (side, p)) := by
  induction levels generalizing m with
  | nil => rfl
  | cons l ls ih =>
    refine (ih h.tail _).trans ?_
    rw [get?_applyEntry]
    by_cases hp : p = l.price
    · subst hp
      rw [quantityAt_eq_none h.price_ne, quantityAt_cons_self, if_pos rfl]
      rfl
    · have hl : l = ⟨l.price, l.orders⟩ := rfl
      rw [hl, quantityAt_cons_ne hp, if_neg fun heq => hp (congrArg Prod.snd heq)]

theorem SideOK.take {side : Side} {levels : List PriceLevel} (h : SideOK side levels) (n : ℕ) :
    SideOK side (levels.take n) :=
  ⟨h.sorted.sublist (List.take_sublist _ _), fun l hl => h.levels l (List.mem_of_mem_take hl)⟩

theorem sideEntries_other (book : BookSnapshot) {side other : Side} (hne : side ≠ other) (p : ℚ) :
    (side, p) ∉ (sideEntries book other).map Prod.fst := by
  intro hmem
  obtain ⟨x, hx, heq⟩ := List.mem_map.mp hmem
  obtain ⟨y, -, rfl⟩ := List.mem_map.mp hx
  exact hne (congrArg Prod.fst heq).symm

/-- The read of a reader is right as far as it goes. -/
theorem get?_ofDepth {s : EngineState} (h : BookOK s) (n : ℕ) (side : Side) (p : ℚ) :
    (ofDepth (snapshot s n)).get? (side, p) = quantityAt ((levelsFor s side).take n) p := by
  have hside (m : OrdMap (Side × ℚ) ℚ) (hm : m.get? (side, p) = none) :
      (applyFeed m (sideEntries (snapshot s n) side)).get? (side, p) =
        quantityAt ((levelsFor s side).take n) p := by
    unfold sideEntries
    rw [shown_snapshot, List.map_map]
    refine (get?_sideEntries ((h.side side).take n) m p).trans ?_
    rw [hm, Option.or_none]
  unfold ofDepth
  rw [applyFeed_append]
  cases side with
  | Bid =>
    rw [get?_applyFeed_of_notMem (sideEntries_other _ (by decide) p)]
    exact hside _ rfl
  | Ask =>
    refine hside _ ?_
    rw [get?_applyFeed_of_notMem (sideEntries_other _ (by decide) p)]
    rfl

theorem get?_ofDepth_reached {s : EngineState} (h : BookOK s) {n : ℕ} {side : Side} {p : ℚ}
    (hreach : Reaches n (snapshot s n) side p) :
    (ofDepth (snapshot s n)).get? (side, p) = quantityAt (levelsFor s side) p := by
  rw [get?_ofDepth h]
  refine quantityAt_take (h.side side) ?_
  unfold Reaches at hreach
  rw [shown_snapshot, List.length_map] at hreach
  refine hreach.imp_right ?_
  rintro ⟨x, hx, hworse⟩
  obtain ⟨l, hl, rfl⟩ := List.mem_map.mp hx
  exact ⟨l, hl, hworse⟩

/-- A book with all levels agrees. -/
theorem agrees_ofDepth {s : EngineState} (h : BookOK s) :
    Agrees (ofDepth (snapshot s (s.bids.length + s.asks.length + 1))) s := by
  intro side p
  refine get?_ofDepth_reached h (Or.inl ?_)
  have hlen : (levelsFor s side).length ≤ s.bids.length + s.asks.length := by
    cases side
    · exact Nat.le_add_right _ _
    · exact Nat.le_add_left _ _
  rw [shown_snapshot, List.length_map, List.length_take]
  omega

namespace Engine

/-- The prices that the deltas among the outputs speak of. -/
def spokenOf (outs : List DraftOutput) : List (Side × ℚ) := (outs.filterMap bookEntry).map Prod.fst

/-- A depth read somewhere in the stream of deltas makes up for what came before it. -/
theorem depth_and_deltas {market : MarketConfig} {s : EngineState}
    (h : Reachable engineInputEventSchema market s) {xs ys : List (EngineInputEvent × StreamId)}
    (hxs : RunOf engineInputEventSchema xs) (hys : RunOf engineInputEventSchema ys) (n : ℕ)
    {side : Side} {p : ℚ}
    (hknown : Reaches n (Perps.snapshot (run s xs).1 n) side p ∨
      (side, p) ∈ spokenOf ((run s (xs ++ ys)).2.map EngineOutputEvent.payload)) :
    (followed (ofDepth (Perps.snapshot (run s xs).1 n))
      ((run s (xs ++ ys)).2.map EngineOutputEvent.payload)).get? (side, p) =
      quantityAt (levelsFor (run s (xs ++ ys)).1 side) p := by
  have hs := reachable_bookOK h
  have ht := reachable_bookOK (reachable_run h hxs)
  have hfull := agrees_ofDepth hs
  have hread := run_agrees hs hfull hxs
  have hall : RunOf engineInputEventSchema (xs ++ ys) := fun x hx =>
    (List.mem_append.mp hx).elim (hxs x) (hys x)
  rw [← run_agrees hs hfull hall side p]
  unfold followed spokenOf at *
  rw [run_append] at hknown ⊢
  dsimp only at hknown ⊢
  rw [List.map_append, List.filterMap_append] at hknown ⊢
  refine applyFeed_overlap _ _ _ _ (hknown.imp_left fun hreach => ?_)
  rw [get?_ofDepth_reached ht hreach]
  exact (hread side p).symm

open Fixture in
/-- One level a side is read, in the middle of the stream. What is read of the ask at 100 is
overwritten by older deltas first. -/
theorem depth_and_deltas_overlap :
    let xs := numbered [user "m" 1000000, user "t" 1000000,
      place "m" "a1" .Ask .LIMIT 100 2 1 200, place "m" "a2" .Ask .LIMIT 100 4 1 400]
    let ys := [(place "t" "b1" .Bid .LIMIT 100 3 1 300, (⟨9, 0⟩ : StreamId))]
    (followed (ofDepth (Perps.snapshot (run (createState MARKET) xs).1 1))
      ((run (createState MARKET) (xs ++ ys)).2.map EngineOutputEvent.payload)).get? (.Ask, 100) =
      quantityAt (levelsFor (run (createState MARKET) (xs ++ ys)).1 .Ask) 100 := by
  intro xs ys
  exact depth_and_deltas .init (by decide +kernel) (by decide +kernel) 1 (Or.inr (by decide +kernel))

end Engine

end Perps
