import Perps.Domain.Matching
import Perps.Lib.Thinning

/-! The shape of one side of the book, and the two things that happen to a side:
it is thinned (orders leave or shrink, emptied levels go), or an order is
inserted at the tail of the level of its price. -/

namespace Perps

open Lib Engine

/-- An order as it may rest at `price` on `side`. -/
structure OrderOK (side : Side) (price : ℚ) (o : RestingOrder) : Prop where
  price_eq : o.price = price
  side_eq : o.side = side
  live : 1e-9 < o.remaining
  margin_nonneg : 0 ≤ o.margin
  margin_grid : Grid o.margin

structure LevelOK (side : Side) (l : PriceLevel) : Prop where
  nonempty : l.orders ≠ []
  orders : ∀ x ∈ l.orders, OrderOK side l.price x
  fifo : l.orders.Pairwise fun x y => x.seq < y.seq

structure SideOK (side : Side) (levels : List PriceLevel) : Prop where
  sorted : levels.Pairwise fun l m => betterFirst side l.price m.price
  levels : ∀ l ∈ levels, LevelOK side l

/-- The orders of one side, in priority order. -/
def ordersOf (levels : List PriceLevel) : List RestingOrder := levels.flatMap PriceLevel.orders

@[simp] theorem ordersOf_nil : ordersOf [] = [] := rfl

@[simp] theorem ordersOf_cons (l : PriceLevel) (ls : List PriceLevel) :
    ordersOf (l :: ls) = l.orders ++ ordersOf ls := rfl

@[simp] theorem ordersOf_append (ls ms : List PriceLevel) :
    ordersOf (ls ++ ms) = ordersOf ls ++ ordersOf ms := List.flatMap_append

theorem mem_ordersOf {levels : List PriceLevel} {x : RestingOrder} :
    x ∈ ordersOf levels ↔ ∃ l ∈ levels, x ∈ l.orders := List.mem_flatMap

theorem SideOK.nil (side : Side) : SideOK side [] := ⟨.nil, by simp⟩

theorem SideOK.order {side : Side} {levels : List PriceLevel} (h : SideOK side levels)
    {x : RestingOrder} (hx : x ∈ ordersOf levels) : OrderOK side x.price x := by
  obtain ⟨l, hl, hx⟩ := mem_ordersOf.mp hx
  have hok := (h.levels l hl).orders x hx
  rwa [hok.price_eq]

theorem SideOK.tail {side : Side} {l : PriceLevel} {ls : List PriceLevel}
    (h : SideOK side (l :: ls)) : SideOK side ls :=
  ⟨(List.pairwise_cons.mp h.sorted).2, fun m hm => h.levels m (List.mem_cons_of_mem _ hm)⟩

theorem betterFirst_trans {side : Side} {a b c : ℚ} (h : betterFirst side a b)
    (h' : betterFirst side b c) : betterFirst side a c := by
  cases side <;> simp only [betterFirst, decide_eq_true_eq] at * <;> linarith

theorem betterFirst_irrefl (side : Side) (a : ℚ) : ¬ betterFirst side a a := by
  cases side <;> simp [betterFirst]

theorem betterFirst_total {side : Side} {a b : ℚ} (h : a ≠ b) (hab : ¬ betterFirst side a b) :
    betterFirst side b a := by
  cases side <;> simp only [betterFirst, decide_eq_true_eq, not_lt] at *
  · exact lt_of_le_of_ne hab h
  · exact lt_of_le_of_ne hab h.symm

/-! Thinning -/

/-- `x` is `y`, or what a fill leaves of it. -/
inductive Reduced : RestingOrder → RestingOrder → Prop
  | same (x : RestingOrder) : Reduced x x
  | filled (x : RestingOrder) {f : ℚ} (h0 : 0 ≤ f) (hf : f ≤ x.remaining)
    (hlive : 1e-9 < (fillMaker x f).remaining) : Reduced (fillMaker x f) x

/-- `l` is a level of the thinned side, `m` the level it comes from. -/
structure ThinnedLevel (l m : PriceLevel) : Prop where
  price : l.price = m.price
  nonempty : l.orders ≠ []
  orders : List.SublistForall₂ Reduced l.orders m.orders

def Thinned (levels levels' : List PriceLevel) : Prop :=
  List.SublistForall₂ ThinnedLevel levels levels'

theorem Reduced.seq {x y : RestingOrder} (h : Reduced x y) : x.seq = y.seq := by
  cases h <;> rfl

theorem Reduced.leverage {x y : RestingOrder} (h : Reduced x y) : x.leverage = y.leverage := by
  cases h <;> rfl

theorem Reduced.orderId {x y : RestingOrder} (h : Reduced x y) : x.orderId = y.orderId := by
  cases h <;> rfl

/-- What a fill takes of a maker's margin is at most that margin. -/
theorem makerFillMargin_le {x : RestingOrder} {f : ℚ} (hf : f ≤ x.remaining) (hm : 0 ≤ x.margin)
    (hg : Grid x.margin) : makerFillMargin x f ≤ x.margin := by
  unfold makerFillMargin
  split_ifs with h
  · refine q_le ?_ hg
    have : f / x.remaining ≤ 1 := (div_le_one h).mpr hf
    nlinarith
  · exact hm

theorem Reduced.ok {x y : RestingOrder} {side : Side} {price : ℚ} (h : Reduced x y)
    (hy : OrderOK side price y) : OrderOK side price x := by
  cases h with
  | same => exact hy
  | @filled _ f h0 hf hlive =>
    refine ⟨hy.price_eq, hy.side_eq, hlive, ?_, grid_q _⟩
    have := makerFillMargin_le hf hy.margin_nonneg hy.margin_grid
    exact q_nonneg (by linarith)

theorem Reduced.grid {x y : RestingOrder} (h : Reduced x y) (hy : Grid y.remaining) :
    Grid x.remaining := by
  cases h with
  | same => exact hy
  | filled => exact grid_q _

theorem ThinnedLevel.ok {l m : PriceLevel} {side : Side} (h : ThinnedLevel l m)
    (hm : LevelOK side m) : LevelOK side l where
  nonempty := h.nonempty
  orders x hx := by
    obtain ⟨y, hy, hxy⟩ := exists_of_mem_thinned h.orders hx
    rw [h.price]
    exact hxy.ok (hm.orders y hy)
  fifo := by
    have hsub := map_sublist_of_thinned (fun _ _ hr => Reduced.seq hr) h.orders
    have hfifo : (m.orders.map RestingOrder.seq).Pairwise (· < ·) := List.pairwise_map.mpr hm.fifo
    exact List.pairwise_map.mp (hfifo.sublist hsub)

theorem SideOK.thinned {side : Side} {levels levels' : List PriceLevel} (h : SideOK side levels')
    (ht : Thinned levels levels') : SideOK side levels where
  sorted := by
    have hsub := map_sublist_of_thinned (fun _ _ hr => ThinnedLevel.price hr) ht
    have hsorted : (levels'.map PriceLevel.price).Pairwise fun a b => betterFirst side a b :=
      List.pairwise_map.mpr h.sorted
    exact List.pairwise_map.mp (hsorted.sublist hsub)
  levels l hl := by
    obtain ⟨m, hm, hlm⟩ := exists_of_mem_thinned ht hl
    exact hlm.ok (h.levels m hm)

theorem Thinned.refl {side : Side} {levels : List PriceLevel} (h : SideOK side levels) :
    Thinned levels levels :=
  thinned_of_sublist (fun l hl => ⟨rfl, (h.levels l hl).nonempty,
    thinned_of_sublist (fun x _ => .same x) (List.Sublist.refl _)⟩) (List.Sublist.refl _)

theorem Thinned.orders {levels levels' : List PriceLevel} (h : Thinned levels levels') :
    List.SublistForall₂ Reduced (ordersOf levels) (ordersOf levels') :=
  thinned_flatMap (fun _ _ => ThinnedLevel.orders) h

/-- Fills only shorten a queue and shrink its orders. -/
theorem afterFills_thinned {os : List RestingOrder} (hos : ∀ x ∈ os, 1e-9 < x.remaining) (r : ℚ) :
    List.SublistForall₂ Reduced (afterFills os r) os := by
  induction os generalizing r with
  | nil => exact .nil
  | cons maker rest ih =>
    have hmaker := hos maker List.mem_cons_self
    have ih := ih (fun x hx => hos x (List.mem_cons_of_mem _ hx))
    rw [afterFills]
    split_ifs with hr
    · unfold shiftFilled
      split_ifs with hlive
      · exact .cons_right (ih _)
      · refine .cons (.filled maker ?_ (min_le_right _ _) (not_le.mp hlive)) (ih _)
        have : (0 : ℚ) < 1e-9 := by norm_num
        exact le_min (by linarith) (by linarith)
    · exact thinned_of_sublist (fun x _ => .same x) (List.Sublist.refl _)

theorem LevelOK.live {side : Side} {l : PriceLevel} (h : LevelOK side l) :
    ∀ x ∈ l.orders, 1e-9 < x.remaining := fun x hx => (h.orders x hx).live

/-- Matching thins the side it takes from. -/
theorem sweepLevels_thinned (o : PlaceOrder) {side : Side} {levels : List PriceLevel}
    (h : SideOK side levels) (r : ℚ) : Thinned (sweepLevels o levels r) levels := by
  induction levels generalizing r with
  | nil => exact .nil
  | cons l ls ih =>
    have hl := h.levels l List.mem_cons_self
    rw [sweepLevels]
    split_ifs with hc he
    · exact .cons_right (ih h.tail _)
    · exact .cons ⟨rfl, he, afterFills_thinned hl.live r⟩ (Thinned.refl h.tail)
    · exact Thinned.refl h

/-- Dropping orders of one level, and the level if it is left empty, thins the
side. -/
theorem setOrders_thinned {side : Side} {levels : List PriceLevel} (h : SideOK side levels)
    {price : ℚ} {l : PriceLevel} (hfind : levels.find? (fun m => m.price = price) = some l)
    {os : List RestingOrder} (hos : os.Sublist l.orders) :
    Thinned (removeEmptyLevel (setOrders price os levels) price) levels := by
  induction levels with
  | nil => cases hfind
  | cons m ms ih =>
    by_cases hp : m.price = price
    · rw [List.find?_cons_of_pos (by simpa using hp)] at hfind
      obtain rfl := Option.some.inj hfind
      rw [setOrders, if_pos hp, removeEmptyLevel, if_pos hp]
      split_ifs with he
      · exact .cons_right (Thinned.refl h.tail)
      · exact .cons ⟨rfl, he, thinned_of_sublist (fun x _ => .same x) hos⟩ (Thinned.refl h.tail)
    · rw [List.find?_cons_of_neg (by simpa using hp)] at hfind
      rw [setOrders, if_neg hp, removeEmptyLevel, if_neg hp]
      have hm : ThinnedLevel m m := ⟨rfl, (h.levels m List.mem_cons_self).nonempty,
        thinned_of_sublist (fun x _ => .same x) (List.Sublist.refl _)⟩
      exact .cons hm (ih h.tail hfind)

theorem eraseP_perm {os : List RestingOrder} {p : RestingOrder → Bool} {x : RestingOrder}
    (h : os.find? p = some x) : os.Perm (x :: os.eraseP p) := by
  induction os with
  | nil => cases h
  | cons y ys ih =>
    by_cases hy : p y = true
    · rw [List.find?_cons_of_pos hy] at h
      obtain rfl := Option.some.inj h
      rw [List.eraseP_cons_of_pos hy]
    · rw [List.find?_cons_of_neg hy] at h
      rw [List.eraseP_cons_of_neg hy]
      exact ((ih h).cons y).trans (.swap _ _ _)

/-- Dropping one order of a level drops it from the side. -/
theorem setOrders_perm {levels : List PriceLevel} {price : ℚ} {l : PriceLevel}
    (hl : levels.find? (fun m => m.price = price) = some l) {os : List RestingOrder}
    {x : RestingOrder} (hos : l.orders.Perm (x :: os)) :
    (ordersOf levels).Perm (x :: ordersOf (removeEmptyLevel (setOrders price os levels) price)) := by
  induction levels with
  | nil => cases hl
  | cons m ms ih =>
    by_cases hp : m.price = price
    · rw [List.find?_cons_of_pos (by simpa using hp)] at hl
      obtain rfl := Option.some.inj hl
      rw [setOrders, if_pos hp, removeEmptyLevel, if_pos hp]
      dsimp only
      split_ifs with he
      · subst he
        exact hos.append_right _
      · exact hos.append_right _
    · rw [List.find?_cons_of_neg (by simpa using hp)] at hl
      rw [setOrders, if_neg hp, removeEmptyLevel, if_neg hp]
      exact ((ih hl).append_left m.orders).trans List.perm_middle

/-! Insertion -/

/-- `levels'` is `levels` with `order` at the tail of the level of its price. -/
inductive Inserted (order : RestingOrder) : List PriceLevel → List PriceLevel → Prop
  | joined (ls : List PriceLevel) (l : PriceLevel) (ms : List PriceLevel)
    (hl : l.price = order.price) :
    Inserted order (ls ++ l :: ms) (ls ++ { l with orders := l.orders ++ [order] } :: ms)
  | spliced (ls ms : List PriceLevel) (hls : ∀ l ∈ ls, betterFirst order.side l.price order.price)
    (hms : ∀ l ∈ ms, betterFirst order.side order.price l.price) :
    Inserted order (ls ++ ms) (ls ++ ⟨order.price, [order]⟩ :: ms)

theorem Inserted.cons {order : RestingOrder} {levels levels' : List PriceLevel}
    (h : Inserted order levels levels') {l : PriceLevel}
    (hl : betterFirst order.side l.price order.price) :
    Inserted order (l :: levels) (l :: levels') := by
  cases h with
  | joined ls m ms hm => exact .joined (l :: ls) m ms hm
  | spliced ls ms hls hms =>
    refine .spliced (l :: ls) ms (fun x hx => ?_) hms
    rcases List.mem_cons.mp hx with rfl | hx
    · exact hl
    · exact hls x hx

/-- The first level is the one the order joins, or comes before it, or after it. -/
theorem insertLevels_cons (order : RestingOrder) (l : PriceLevel) (ls : List PriceLevel)
    (hnone : betterFirst order.side order.price l.price →
      ls.find? (fun m => m.price = order.price) = none) :
    insertLevels (l :: ls) order =
      if l.price = order.price then { l with orders := l.orders ++ [order] } :: ls
      else if betterFirst order.side order.price l.price then ⟨order.price, [order]⟩ :: l :: ls
      else l :: insertLevels ls order := by
  unfold insertLevels
  by_cases hp : l.price = order.price
  · simp [hp, pushOrder]
  · rw [if_neg hp, List.find?_cons_of_neg (by simpa using hp)]
    dsimp only
    by_cases hb : betterFirst order.side order.price l.price
    · rw [if_pos hb, hnone hb]
      simp [spliceLevel, hb, pushOrder]
    · rw [if_neg hb]
      split_ifs with hf
      · simp [pushOrder, hp]
      · simp [spliceLevel, hb, pushOrder, hp]

theorem insertLevels_inserted {order : RestingOrder} {levels : List PriceLevel}
    (h : levels.Pairwise fun l m => betterFirst order.side l.price m.price) :
    Inserted order levels (insertLevels levels order) := by
  induction levels with
  | nil =>
    have hins : insertLevels [] order = [⟨order.price, [order]⟩] := by
      simp [insertLevels, spliceLevel, pushOrder]
    rw [hins]
    exact .spliced [] [] (by simp) (by simp)
  | cons l ls ih =>
    rw [List.pairwise_cons] at h
    have hworse (hb : betterFirst order.side order.price l.price) (m : PriceLevel) (hm : m ∈ ls) :
        betterFirst order.side order.price m.price := betterFirst_trans hb (h.1 m hm)
    have hnone (hb : betterFirst order.side order.price l.price) :
        ls.find? (fun m => m.price = order.price) = none := by
      rw [List.find?_eq_none]
      intro m hm hmp
      have := hworse hb m hm
      rw [of_decide_eq_true hmp] at this
      exact betterFirst_irrefl _ _ this
    rw [insertLevels_cons order l ls hnone]
    split_ifs with hp hb
    · exact .joined [] l ls hp
    · refine .spliced [] (l :: ls) (by simp) (fun m hm => ?_)
      rcases List.mem_cons.mp hm with rfl | hm
      · exact hb
      · exact hworse hb m hm
    · exact (ih h.2).cons (betterFirst_total (Ne.symm hp) hb)

theorem Inserted.orders_perm {order : RestingOrder} {levels levels' : List PriceLevel}
    (h : Inserted order levels levels') : (ordersOf levels').Perm (order :: ordersOf levels) := by
  cases h with
  | joined ls l ms hl =>
    simp only [ordersOf_append, ordersOf_cons, List.append_assoc, List.singleton_append]
    rw [← List.append_assoc, ← List.append_assoc]
    exact List.perm_middle
  | spliced ls ms _ _ =>
    simp only [ordersOf_append, ordersOf_cons, List.singleton_append]
    exact List.perm_middle

theorem Inserted.prices {order : RestingOrder} {levels levels' : List PriceLevel}
    (h : Inserted order levels levels') {l : PriceLevel} (hl : l ∈ levels') :
    l.price = order.price ∨ ∃ m ∈ levels, l.price = m.price := by
  cases h with
  | joined ls m ms hm =>
    rcases List.mem_append.mp hl with hl | hl
    · exact Or.inr ⟨l, List.mem_append_left _ hl, rfl⟩
    · rcases List.mem_cons.mp hl with rfl | hl
      · exact Or.inl hm
      · exact Or.inr ⟨l, List.mem_append_right _ (List.mem_cons_of_mem _ hl), rfl⟩
  | spliced ls ms _ _ =>
    rcases List.mem_append.mp hl with hl | hl
    · exact Or.inr ⟨l, List.mem_append_left _ hl, rfl⟩
    · rcases List.mem_cons.mp hl with rfl | hl
      · exact Or.inl rfl
      · exact Or.inr ⟨l, List.mem_append_right _ hl, rfl⟩

/-- Inserting the youngest order keeps the side in shape. -/
theorem SideOK.inserted {order : RestingOrder} {levels levels' : List PriceLevel}
    (h : SideOK order.side levels) (hins : Inserted order levels levels')
    (ho : OrderOK order.side order.price order)
    (hseq : ∀ x ∈ ordersOf levels, x.seq < order.seq) : SideOK order.side levels' := by
  obtain ⟨hsorted, hlevels⟩ := h
  cases hins with
  | joined ls l ms hl =>
    refine ⟨?_, fun m hm => ?_⟩
    · simp only [List.pairwise_append, List.pairwise_cons, List.forall_mem_cons] at hsorted ⊢
      exact hsorted
    · have hl' := hlevels l (by simp)
      rcases List.mem_append.mp hm with hm | hm
      · exact hlevels m (List.mem_append_left _ hm)
      rcases List.mem_cons.mp hm with rfl | hm
      · refine ⟨by simp, fun x hx => ?_, ?_⟩
        · rcases List.mem_append.mp hx with hx | hx
          · exact hl'.orders x hx
          · rw [List.mem_singleton.mp hx]
            show OrderOK _ l.price order
            rwa [hl]
        · refine List.pairwise_append.mpr ⟨hl'.fifo, List.pairwise_singleton _ _, fun x hx y hy => ?_⟩
          rw [List.mem_singleton.mp hy]
          exact hseq x (mem_ordersOf.mpr ⟨l, by simp, hx⟩)
      · exact hlevels m (List.mem_append_right _ (List.mem_cons_of_mem _ hm))
  | spliced ls ms hls hms =>
    refine ⟨?_, fun m hm => ?_⟩
    · rw [List.pairwise_append] at hsorted ⊢
      refine ⟨hsorted.1, List.pairwise_cons.mpr ⟨hms, hsorted.2.1⟩, fun a ha b hb => ?_⟩
      rcases List.mem_cons.mp hb with rfl | hb
      · exact hls a ha
      · exact hsorted.2.2 a ha b hb
    · rcases List.mem_append.mp hm with hm | hm
      · exact hlevels m (List.mem_append_left _ hm)
      rcases List.mem_cons.mp hm with rfl | hm
      · exact ⟨by simp, fun x hx => by rwa [List.mem_singleton.mp hx], List.pairwise_singleton _ _⟩
      · exact hlevels m (List.mem_append_right _ hm)

/-! Taking an inserted order out again -/

section Undo

variable {price : ℚ} {ls : List PriceLevel} (hls : ∀ l ∈ ls, l.price ≠ price)

include hls

theorem find?_past (ms : List PriceLevel) : (ls ++ ms).find? (fun l => l.price = price) =
    ms.find? fun l => l.price = price := by
  rw [List.find?_append, List.find?_eq_none.mpr fun l hl => by simpa using hls l hl, Option.none_or]

theorem setOrders_past (os : List RestingOrder) (ms : List PriceLevel) :
    setOrders price os (ls ++ ms) = ls ++ setOrders price os ms := by
  induction ls with
  | nil => rfl
  | cons l ls ih =>
    rw [List.cons_append, setOrders, if_neg (hls l List.mem_cons_self),
      ih fun m hm => hls m (List.mem_cons_of_mem _ hm), List.cons_append]

theorem removeEmptyLevel_past (ms : List PriceLevel) :
    removeEmptyLevel (ls ++ ms) price = ls ++ removeEmptyLevel ms price := by
  induction ls with
  | nil => rfl
  | cons l ls ih =>
    rw [List.cons_append, removeEmptyLevel, if_neg (hls l List.mem_cons_self),
      ih fun m hm => hls m (List.mem_cons_of_mem _ hm), List.cons_append]

end Undo

/-- The last order of a queue, by an id that no order before it has. -/
theorem last_of_queue {os : List RestingOrder} {x : RestingOrder}
    (h : ∀ y ∈ os, y.orderId ≠ x.orderId) :
    (os ++ [x]).find? (fun y => y.orderId = x.orderId) = some x ∧
      (os ++ [x]).eraseP (fun y => y.orderId = x.orderId) = os := by
  constructor
  · rw [List.find?_append, List.find?_eq_none.mpr fun y hy => by simpa using h y hy]
    simp
  · rw [List.eraseP_append_right _ fun y hy => by simpa using h y hy]
    simp

/-- Cancelling an inserted order by its price and id gives the side back. -/
theorem Inserted.undo {order : RestingOrder} {levels levels' : List PriceLevel}
    (h : Inserted order levels levels') (hok : SideOK order.side levels)
    (hnew : ∀ x ∈ ordersOf levels, x.orderId ≠ order.orderId) :
    ∃ level, levels'.find? (fun l => l.price = order.price) = some level ∧
      level.orders.find? (fun x => x.orderId = order.orderId) = some order ∧
      removeEmptyLevel (setOrders order.price
        (level.orders.eraseP fun x => x.orderId = order.orderId) levels') order.price = levels := by
  have hne {p : ℚ} (hb : betterFirst order.side p order.price) : p ≠ order.price := by
    rintro rfl
    exact betterFirst_irrefl _ _ hb
  cases h with
  | joined ls l ms hl =>
    have hsorted := (List.pairwise_append.mp hok.sorted).2.2
    have hls : ∀ m ∈ ls, m.price ≠ order.price := fun m hm =>
      hne (hl ▸ hsorted m hm l List.mem_cons_self)
    have hmem : l ∈ ls ++ l :: ms := List.mem_append_right _ List.mem_cons_self
    obtain ⟨hfind, herase⟩ := last_of_queue fun x hx => hnew x (mem_ordersOf.mpr ⟨l, hmem, hx⟩)
    refine ⟨{ l with orders := l.orders ++ [order] }, ?_, hfind, ?_⟩
    · rw [find?_past hls, List.find?_cons_of_pos (by simpa using hl)]
    · -- the level was there with other orders, and stays
      rw [setOrders_past hls, setOrders, if_pos hl, herase, removeEmptyLevel_past hls,
        removeEmptyLevel, if_pos hl, if_neg (hok.levels l hmem).nonempty]
  | spliced ls ms hbefore hafter =>
    have hls : ∀ m ∈ ls, m.price ≠ order.price := fun m hm => hne (hbefore m hm)
    have hempty : ∀ y ∈ ([] : List RestingOrder), y.orderId ≠ order.orderId := by simp
    obtain ⟨hfind, herase⟩ := last_of_queue hempty
    refine ⟨⟨order.price, [order]⟩, ?_, hfind, ?_⟩
    · rw [find?_past hls, List.find?_cons_of_pos (by simp)]
    · rw [setOrders_past hls, setOrders, if_pos rfl, ← List.nil_append [order], herase,
        removeEmptyLevel_past hls, removeEmptyLevel, if_pos rfl, if_pos rfl]

end Perps
