import Perps.Lib.OrdMap

/-! Maps kept up to date by a feed. An entry of the feed says what the value of
one key is from now on, `none` for a key that has no value any more. A feed
brings a map up to date when all its entries are up to date and every key that
has changed is among them, in whatever order and however often. Of the entries for
one key the newest decides, and where every key has one entry their order does not
matter. -/

namespace Lib

variable {κ ν : Type*} [DecidableEq κ]

def applyEntry (m : OrdMap κ ν) (x : κ × Option ν) : OrdMap κ ν :=
  match x.2 with
  | some v => m.set x.1 v
  | none => m.erase x.1

def applyFeed (m : OrdMap κ ν) (feed : List (κ × Option ν)) : OrdMap κ ν := feed.foldl applyEntry m

theorem get?_applyEntry (m : OrdMap κ ν) (x : κ × Option ν) (k : κ) :
    (applyEntry m x).get? k = if k = x.1 then x.2 else m.get? k := by
  obtain ⟨j, v⟩ := x
  cases v with
  | some v => exact m.get?_set j k v
  | none => exact m.get?_erase j k

theorem applyFeed_append (m : OrdMap κ ν) (xs ys : List (κ × Option ν)) :
    applyFeed m (xs ++ ys) = applyFeed (applyFeed m xs) ys := List.foldl_append

theorem get?_applyFeed_of_notMem {feed : List (κ × Option ν)} {k : κ}
    (h : k ∉ feed.map Prod.fst) (m : OrdMap κ ν) : (applyFeed m feed).get? k = m.get? k := by
  induction feed generalizing m with
  | nil => rfl
  | cons x xs ih =>
    rw [List.map_cons, List.mem_cons, not_or] at h
    exact (ih h.2 _).trans ((get?_applyEntry m x k).trans (if_neg h.1))

/-- What a feed tells does not depend on where it starts. -/
theorem get?_applyFeed_of_mem {feed : List (κ × Option ν)} {k : κ} (h : k ∈ feed.map Prod.fst)
    (m m' : OrdMap κ ν) : (applyFeed m feed).get? k = (applyFeed m' feed).get? k := by
  induction feed generalizing m m' with
  | nil => cases h
  | cons x xs ih =>
    by_cases hxs : k ∈ xs.map Prod.fst
    · exact ih hxs _ _
    · have hk : k = x.1 := (List.mem_cons.mp h).resolve_right hxs
      show (applyFeed (applyEntry m x) xs).get? k = (applyFeed (applyEntry m' x) xs).get? k
      rw [get?_applyFeed_of_notMem hxs, get?_applyFeed_of_notMem hxs, get?_applyEntry,
        get?_applyEntry, if_pos hk, if_pos hk]

/-- A reader whose copy was taken after the first part of a feed may apply that part again:
where the copy was right or the feed tells a value, it ends up right. -/
theorem applyFeed_overlap (m copy : OrdMap κ ν) (xs ys : List (κ × Option ν)) {k : κ}
    (h : copy.get? k = (applyFeed m xs).get? k ∨ k ∈ (xs ++ ys).map Prod.fst) :
    (applyFeed copy (xs ++ ys)).get? k = (applyFeed m (xs ++ ys)).get? k := by
  by_cases hk : k ∈ (xs ++ ys).map Prod.fst
  · exact get?_applyFeed_of_mem hk copy m
  · have hxs : k ∉ xs.map Prod.fst := fun hmem => hk (by
      rw [List.map_append]
      exact List.mem_append_left _ hmem)
    rw [get?_applyFeed_of_notMem hk, get?_applyFeed_of_notMem hk, h.resolve_right hk,
      get?_applyFeed_of_notMem hxs]

/-- The values need be up to date only as far as `g` shows them. -/
theorem applyFeed_exact {μ : Type*} {g : ν → μ} {m : OrdMap κ ν} {feed : List (κ × Option ν)}
    {f : κ → Option μ} (hvalues : ∀ x ∈ feed, x.2.map g = f x.1)
    (hall : ∀ k, (m.get? k).map g ≠ f k → k ∈ feed.map Prod.fst) (k : κ) :
    ((applyFeed m feed).get? k).map g = f k := by
  induction feed generalizing m with
  | nil =>
    by_contra hk
    exact absurd (hall k hk) List.not_mem_nil
  | cons x xs ih =>
    refine ih (m := applyEntry m x) (fun y hy => hvalues y (List.mem_cons_of_mem _ hy)) ?_
    intro j hj
    rw [get?_applyEntry] at hj
    split_ifs at hj with hx
    · rw [hx] at hj
      exact absurd (hvalues x List.mem_cons_self) hj
    · rcases List.mem_cons.mp (hall j hj) with hjx | hjx
      · exact absurd hjx hx
      · exact hjx

/-- The value of the last entry for `k`. -/
def newest (k : κ) : List (κ × ν) → Option ν
  | [] => none
  | x :: xs => (newest k xs).or (if x.1 = k then some x.2 else none)

/-- The value of the first entry for `k`. -/
def oldest (k : κ) : List (κ × ν) → Option ν
  | [] => none
  | x :: xs => if x.1 = k then some x.2 else oldest k xs

theorem newest_append (k : κ) (xs ys : List (κ × ν)) :
    newest k (xs ++ ys) = (newest k ys).or (newest k xs) := by
  induction xs with
  | nil => cases h : newest k ys <;> simp [newest, h]
  | cons x xs ih => rw [List.cons_append, newest, ih, newest, Option.or_assoc]

theorem oldest_append (k : κ) (xs ys : List (κ × ν)) :
    oldest k (xs ++ ys) = (oldest k xs).or (oldest k ys) := by
  induction xs with
  | nil => rfl
  | cons x xs ih =>
    rw [List.cons_append, oldest, oldest, ih]
    split_ifs <;> rfl

theorem newest_map {μ : Type*} (f : ν → μ) (k : κ) (xs : List (κ × ν)) :
    newest k (xs.map (Prod.map id f)) = (newest k xs).map f := by
  induction xs with
  | nil => rfl
  | cons x xs ih =>
    rw [List.map_cons, newest, newest, ih]
    dsimp only [Prod.map_fst, Prod.map_snd, id]
    by_cases hk : x.1 = k
    · rw [if_pos hk, if_pos hk, Option.map_or]
      rfl
    · rw [if_neg hk, if_neg hk, Option.or_none, Option.or_none]

/-- A feed leaves the newest entry of each key. -/
theorem get?_applyFeed (m : OrdMap κ ν) (feed : List (κ × Option ν)) (k : κ) :
    (applyFeed m feed).get? k = (newest k feed).getD (m.get? k) := by
  induction feed generalizing m with
  | nil => rfl
  | cons x xs ih =>
    refine (ih (applyEntry m x)).trans ?_
    rw [newest, get?_applyEntry, Option.getD_or]
    refine congrArg _ ?_
    by_cases hk : k = x.1
    · rw [if_pos hk, if_pos hk.symm]
      rfl
    · rw [if_neg hk, if_neg (Ne.symm hk)]
      rfl

/-- A log of writes whose values are those of a feed, seen through `g`. -/
theorem newest_eq_applyFeed {μ : Type*} {xs : List (κ × μ)} {feed : List (κ × Option ν)} {g : ν → μ}
    (h : xs.map (Prod.map id some) = feed.map (Prod.map id (Option.map g))) (k : κ) :
    newest k xs = ((applyFeed OrdMap.empty feed).get? k).map g := by
  have hnewest : (newest k xs).map some = (newest k feed).map (Option.map g) := by
    rw [← newest_map, ← newest_map, h]
  rw [get?_applyFeed]
  cases hx : newest k xs with
  | none =>
    rw [hx, eq_comm, Option.map_none, Option.map_eq_none_iff] at hnewest
    rw [hnewest]
    rfl
  | some v =>
    rw [hx, eq_comm, Option.map_some, Option.map_eq_some_iff] at hnewest
    obtain ⟨w, hw, hv⟩ := hnewest
    rw [hw, Option.getD_some, hv]

theorem newest_of_notMem {k : κ} {xs : List (κ × ν)} (h : k ∉ xs.map Prod.fst) :
    newest k xs = none := by
  induction xs with
  | nil => rfl
  | cons x xs ih =>
    rw [List.map_cons, List.mem_cons, not_or] at h
    rw [newest, ih h.2, if_neg (Ne.symm h.1)]
    rfl

theorem newest_of_mem {xs : List (κ × ν)} (h : (xs.map Prod.fst).Nodup) {k : κ} {v : ν}
    (hmem : (k, v) ∈ xs) : newest k xs = some v := by
  induction xs with
  | nil => cases hmem
  | cons x xs ih =>
    rw [List.map_cons, List.nodup_cons] at h
    rcases List.mem_cons.mp hmem with rfl | hmem
    · rw [newest, newest_of_notMem h.1, if_pos rfl]
      rfl
    · rw [newest, ih h.2 hmem]
      rfl

/-- Whether a key has a newest value does not depend on the order of the entries. -/
theorem newest_isSome (k : κ) (xs : List (κ × ν)) :
    (newest k xs).isSome = decide (k ∈ xs.map Prod.fst) := by
  induction xs with
  | nil => rfl
  | cons x xs ih =>
    rw [newest, Option.isSome_or, ih, List.map_cons]
    by_cases hx : x.1 = k
    · simp [hx]
    · have hk : ¬ k = x.1 := fun hk => hx hk.symm
      simp [hx, hk]

theorem newest_isSome_perm {xs ys : List (κ × ν)} (h : xs.Perm ys) (k : κ) :
    (newest k ys).isSome = (newest k xs).isSome := by
  rw [newest_isSome, newest_isSome, decide_eq_decide]
  exact (h.map Prod.fst).mem_iff.symm

theorem oldest_of_notMem {k : κ} {xs : List (κ × ν)} (h : k ∉ xs.map Prod.fst) :
    oldest k xs = none := by
  induction xs with
  | nil => rfl
  | cons x xs ih =>
    rw [List.map_cons, List.mem_cons, not_or] at h
    rw [oldest, if_neg (Ne.symm h.1), ih h.2]

omit [DecidableEq κ] in
theorem keys_filterMap {α : Type*} (f : α → Option (κ × ν)) (xs : List α) :
    (xs.filterMap f).map Prod.fst = xs.filterMap fun x => (f x).map Prod.fst := by
  rw [List.map_filterMap]

omit [DecidableEq κ] in
/-- Of two elements at most one has a given key. -/
theorem key_unique {α : Type*} {f : α → Option κ} {xs : List α} (h : (xs.filterMap f).Nodup)
    {x y : α} (hx : x ∈ xs) (hy : y ∈ xs) {k : κ} (hkx : f x = some k) (hky : f y = some k) :
    x = y := by
  by_contra hxy
  have hpair := List.pairwise_filterMap.mp h
  have : Std.Symm fun a b => ∀ k, f a = some k → ∀ k', f b = some k' → k ≠ k' :=
    ⟨fun a b hab k hk k' hk' => (hab k' hk' k hk).symm⟩
  exact hpair.forall hx hy hxy k hkx k hky rfl

/-- Where every key occurs once, the order of the entries does not matter. -/
theorem oldest_eq_some {xs : List (κ × ν)} (h : (xs.map Prod.fst).Nodup) (k : κ) (v : ν) :
    oldest k xs = some v ↔ (k, v) ∈ xs := by
  induction xs with
  | nil => simp [oldest]
  | cons x xs ih =>
    rw [List.map_cons, List.nodup_cons] at h
    obtain ⟨j, w⟩ := x
    rw [oldest, List.mem_cons, Prod.mk.injEq]
    by_cases hj : j = k
    · subst hj
      have hnot : (j, v) ∉ xs := fun hm =>
        h.1 (List.mem_map.mpr ⟨(j, v), hm, rfl⟩)
      simp [hnot, eq_comm]
    · have hk : ¬ k = j := fun hk => hj hk.symm
      simp [hj, hk, ih h.2]

theorem oldest_perm {xs ys : List (κ × ν)} (hxs : (xs.map Prod.fst).Nodup) (h : xs.Perm ys)
    (k : κ) : oldest k xs = oldest k ys := by
  have hys : (ys.map Prod.fst).Nodup := (h.map Prod.fst).nodup_iff.mp hxs
  apply Option.ext
  intro v
  rw [oldest_eq_some hxs, oldest_eq_some hys, h.mem_iff]

/-- Every element at its first occurrence. -/
def firsts {α : Type*} [DecidableEq α] (xs : List α) : List α :=
  xs.foldl (fun seen x => if x ∈ seen then seen else seen ++ [x]) []

theorem firsts_snoc {α : Type*} [DecidableEq α] (xs : List α) (x : α) :
    firsts (xs ++ [x]) = if x ∈ firsts xs then firsts xs else firsts xs ++ [x] := by
  unfold firsts
  rw [List.foldl_append]
  rfl

end Lib
