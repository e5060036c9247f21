import Mathlib

/-! Maps that remember the order in which their keys were first set, as the
`Map` of ECMAScript does: setting a key that is present changes its value in
place, setting a new key appends it. The keys are pairwise distinct by
construction. Two maps with the same lookups differ at most in that order, and
sorting their entries by key removes the difference. -/

namespace Lib

structure OrdMap (κ ν : Type*) where
  entries : List (κ × ν)
  nodup : (entries.map Prod.fst).Nodup
  deriving DecidableEq

namespace OrdMap

variable {κ ν : Type*}

@[ext] theorem ext {m n : OrdMap κ ν} (h : m.entries = n.entries) : m = n := by
  cases m
  cases n
  simpa using h

def empty : OrdMap κ ν := ⟨[], List.nodup_nil⟩

def keys (m : OrdMap κ ν) : List κ := m.entries.map Prod.fst

/-- The entries by increasing key, for an order `r` on the keys. -/
def sorted (r : κ → κ → Bool) (m : OrdMap κ ν) : List (κ × ν) :=
  m.entries.mergeSort fun a b => r a.1 b.1

theorem sorted_perm (r : κ → κ → Bool) (m : OrdMap κ ν) : (m.sorted r).Perm m.entries :=
  List.mergeSort_perm _ _

theorem sorted_nodup (r : κ → κ → Bool) (m : OrdMap κ ν) : ((m.sorted r).map Prod.fst).Nodup :=
  (m.sorted_perm r).map Prod.fst |>.nodup_iff.mpr m.nodup

theorem sorted_pairwise {r : κ → κ → Bool} (htrans : ∀ a b c, r a b → r b c → r a c)
    (htotal : ∀ a b, r a b || r b a) (m : OrdMap κ ν) :
    (m.sorted r).Pairwise fun a b => r a.1 b.1 :=
  List.pairwise_mergeSort (fun a b c => htrans a.1 b.1 c.1) (fun a b => htotal a.1 b.1) _

variable [DecidableEq κ]

/-- The value of the first entry with key `k`. -/
def getEntry (k : κ) : List (κ × ν) → Option ν
  | [] => none
  | e :: es => if e.1 = k then some e.2 else getEntry k es

theorem getEntry_of_notMem {k : κ} {es : List (κ × ν)} (h : k ∉ es.map Prod.fst) :
    getEntry k es = none := by
  induction es with
  | nil => rfl
  | cons e es ih =>
    rw [List.map_cons, List.mem_cons, not_or] at h
    rw [getEntry, if_neg (Ne.symm h.1), ih h.2]

def get? (m : OrdMap κ ν) (k : κ) : Option ν := getEntry k m.entries

def has (m : OrdMap κ ν) (k : κ) : Bool := (m.get? k).isSome

/-- Overwrite the value of `k` where it stands, or append it. -/
def setEntry (k : κ) (v : ν) : List (κ × ν) → List (κ × ν)
  | [] => [(k, v)]
  | e :: es => if e.1 = k then (k, v) :: es else e :: setEntry k v es

theorem keys_setEntry (k : κ) (v : ν) (es : List (κ × ν)) :
    (setEntry k v es).map Prod.fst =
      if k ∈ es.map Prod.fst then es.map Prod.fst else es.map Prod.fst ++ [k] := by
  induction es with
  | nil => rfl
  | cons e es ih =>
    by_cases h : e.1 = k
    · simp [setEntry, h]
    · have h' : k ≠ e.1 := fun hk => h hk.symm
      simp only [setEntry, if_neg h, List.map_cons, ih, List.mem_cons, h', false_or]
      split_ifs <;> rfl

theorem nodup_setEntry (k : κ) (v : ν) {es : List (κ × ν)} (h : (es.map Prod.fst).Nodup) :
    ((setEntry k v es).map Prod.fst).Nodup := by
  rw [keys_setEntry]
  split_ifs with hk
  · exact h
  · exact List.nodup_append.mpr ⟨h, List.nodup_singleton k, fun a ha b hb => by
      rw [List.mem_singleton.mp hb]
      exact fun hab => hk (hab ▸ ha)⟩

def set (m : OrdMap κ ν) (k : κ) (v : ν) : OrdMap κ ν :=
  ⟨setEntry k v m.entries, nodup_setEntry k v m.nodup⟩

theorem getEntry_setEntry (k j : κ) (v : ν) (es : List (κ × ν)) :
    getEntry j (setEntry k v es) = if j = k then some v else getEntry j es := by
  induction es with
  | nil => simp [setEntry, getEntry, eq_comm]
  | cons e es ih =>
    by_cases hk : e.1 = k
    · subst hk
      by_cases hj : j = e.1
      · simp [setEntry, getEntry, hj]
      · simp [setEntry, getEntry, hj, Ne.symm hj]
    · by_cases hj : e.1 = j
      · simp [setEntry, getEntry, hk, ← hj]
      · simp only [setEntry, getEntry, if_neg hk, if_neg hj, ih]

@[simp] theorem get?_empty (k : κ) : (empty : OrdMap κ ν).get? k = none := rfl

theorem get?_set (m : OrdMap κ ν) (k j : κ) (v : ν) :
    (m.set k v).get? j = if j = k then some v else m.get? j :=
  getEntry_setEntry k j v m.entries

@[simp] theorem get?_set_self (m : OrdMap κ ν) (k : κ) (v : ν) : (m.set k v).get? k = some v := by
  rw [get?_set, if_pos rfl]

theorem get?_set_ne (m : OrdMap κ ν) {k j : κ} (h : j ≠ k) (v : ν) :
    (m.set k v).get? j = m.get? j := by
  rw [get?_set, if_neg h]

def erase (m : OrdMap κ ν) (k : κ) : OrdMap κ ν :=
  ⟨m.entries.filter fun e => e.1 ≠ k, m.nodup.sublist (List.filter_sublist.map _)⟩

theorem get?_erase (m : OrdMap κ ν) (k j : κ) :
    (m.erase k).get? j = if j = k then none else m.get? j := by
  obtain ⟨es, h⟩ := m
  show getEntry j (es.filter fun e => e.1 ≠ k) = if j = k then none else getEntry j es
  clear h
  induction es with
  | nil => simp [getEntry]
  | cons e es ih =>
    by_cases hk : e.1 = k
    · have hdrop : (e :: es).filter (fun e => e.1 ≠ k) = es.filter fun e => e.1 ≠ k := by simp [hk]
      rw [hdrop, ih, getEntry]
      by_cases hj : j = k
      · simp [hj]
      · simp [hj, hk, Ne.symm hj]
    · have hkeep : (e :: es).filter (fun e => e.1 ≠ k) = e :: es.filter fun e => e.1 ≠ k := by
        simp [hk]
      rw [hkeep, getEntry, getEntry, ih]
      by_cases hj : e.1 = j
      · simp [hj, hj ▸ hk]
      · simp [hj]

theorem setEntry_setEntry (k : κ) (v w : ν) (es : List (κ × ν)) :
    setEntry k w (setEntry k v es) = setEntry k w es := by
  induction es with
  | nil => simp [setEntry]
  | cons e es ih =>
    by_cases h : e.1 = k
    · simp [setEntry, h]
    · simp only [setEntry, if_neg h, ih]

@[simp] theorem set_set (m : OrdMap κ ν) (k : κ) (v w : ν) : (m.set k v).set k w = m.set k w :=
  ext (setEntry_setEntry k v w m.entries)

theorem mem_entries_iff (m : OrdMap κ ν) (k : κ) (v : ν) :
    (k, v) ∈ m.entries ↔ m.get? k = some v := by
  obtain ⟨es, h⟩ := m
  show (k, v) ∈ es ↔ getEntry k es = some v
  induction es with
  | nil => simp [getEntry]
  | cons e es ih =>
    rw [List.map_cons, List.nodup_cons] at h
    rw [getEntry, List.mem_cons, ih h.2]
    split_ifs with hk
    · have hnot : getEntry k es ≠ some v := fun hl =>
        h.1 (hk ▸ List.mem_map_of_mem ((ih h.2).mpr hl))
      rw [or_iff_left hnot, Option.some.injEq]
      constructor
      · intro he
        rw [← he]
      · intro hv
        rw [← hk, ← hv]
    · have hne : (k, v) ≠ e := fun he => hk (by rw [← he])
      rw [or_iff_right hne]

theorem mem_keys_iff (m : OrdMap κ ν) (k : κ) : k ∈ m.keys ↔ ∃ v, m.get? k = some v := by
  simp only [← mem_entries_iff, keys, List.mem_map, Prod.exists, exists_and_right, exists_eq_right]

theorem mem_keys_set (m : OrdMap κ ν) (k j : κ) (v : ν) :
    j ∈ (m.set k v).keys ↔ j ∈ m.keys ∨ j = k := by
  rw [mem_keys_iff, mem_keys_iff, get?_set]
  by_cases h : j = k <;> simp [h]

/-- Maps with the same lookups hold the same entries, in some order. -/
theorem perm_of_get?_eq {m n : OrdMap κ ν} (h : ∀ k, m.get? k = n.get? k) :
    m.entries.Perm n.entries := by
  rw [List.perm_ext_iff_of_nodup m.nodup.of_map n.nodup.of_map]
  rintro ⟨k, v⟩
  rw [mem_entries_iff, mem_entries_iff, h]

/-- Entries with the same keys are the same. -/
theorem entries_eq_of_keys {m n : OrdMap κ ν} (h : ∀ k, m.get? k = n.get? k)
    {xs ys : List (κ × ν)} (hxs : xs ⊆ m.entries) (hys : ys ⊆ n.entries)
    (hkeys : xs.map Prod.fst = ys.map Prod.fst) : xs = ys := by
  induction xs generalizing ys with
  | nil => exact (List.map_eq_nil_iff.mp hkeys.symm).symm
  | cons x xs ih =>
    cases ys with
    | nil => simp at hkeys
    | cons y ys =>
      obtain ⟨k, v⟩ := x
      obtain ⟨j, w⟩ := y
      obtain ⟨rfl, hrest⟩ := List.cons.inj hkeys
      have hv := (m.mem_entries_iff k v).mp (hxs List.mem_cons_self)
      have hw := (n.mem_entries_iff k w).mp (hys List.mem_cons_self)
      obtain rfl := Option.some.inj (hv.symm.trans ((h k).trans hw))
      rw [ih (List.subset_of_cons_subset hxs) (List.subset_of_cons_subset hys) hrest]

theorem get?_eq_of_perm {m n : OrdMap κ ν} (h : m.entries.Perm n.entries) (k : κ) :
    m.get? k = n.get? k := by
  apply Option.ext
  intro v
  rw [← mem_entries_iff, ← mem_entries_iff, h.mem_iff]

/-- `new Map(es)`: the entries are set one after the other. -/
def ofEntries (es : List (κ × ν)) : OrdMap κ ν := es.foldl (fun m e => m.set e.1 e.2) empty

theorem setEntry_of_notMem {k : κ} {es : List (κ × ν)} (h : k ∉ es.map Prod.fst) (v : ν) :
    setEntry k v es = es ++ [(k, v)] := by
  induction es with
  | nil => rfl
  | cons e es ih =>
    rw [List.map_cons, List.mem_cons, not_or] at h
    rw [setEntry, if_neg (Ne.symm h.1), ih h.2, List.cons_append]

theorem foldl_set_entries (es : List (κ × ν)) (m : OrdMap κ ν)
    (h : ((m.entries ++ es).map Prod.fst).Nodup) :
    (es.foldl (fun m e => m.set e.1 e.2) m).entries = m.entries ++ es := by
  induction es generalizing m with
  | nil => simp
  | cons e es ih =>
    have hk : e.1 ∉ m.entries.map Prod.fst := by
      rw [List.map_append, List.map_cons] at h
      exact fun hm => (List.nodup_append.mp h).2.2 _ hm _ List.mem_cons_self rfl
    have hset : (m.set e.1 e.2).entries = m.entries ++ [e] := setEntry_of_notMem hk e.2
    rw [List.foldl_cons, ih, hset, List.append_assoc, List.singleton_append]
    rwa [hset, List.append_assoc, List.singleton_append]

theorem ofEntries_entries {es : List (κ × ν)} (h : (es.map Prod.fst).Nodup) :
    (ofEntries es).entries = es :=
  foldl_set_entries es empty h

/-- Change every value, keeping keys and order. -/
def mapValues (f : ν → ν) (m : OrdMap κ ν) : OrdMap κ ν :=
  ⟨m.entries.map fun e => (e.1, f e.2), by simpa [Function.comp_def] using m.nodup⟩

@[simp] theorem get?_mapValues (f : ν → ν) (m : OrdMap κ ν) (k : κ) :
    (m.mapValues f).get? k = (m.get? k).map f := by
  obtain ⟨es, h⟩ := m
  show getEntry k (es.map fun e => (e.1, f e.2)) = (getEntry k es).map f
  clear h
  induction es with
  | nil => rfl
  | cons e es ih =>
    simp only [List.map_cons, getEntry, ih]
    split_ifs <;> rfl

omit [DecidableEq κ] in
@[simp] theorem keys_mapValues (f : ν → ν) (m : OrdMap κ ν) : (m.mapValues f).keys = m.keys := by
  simp only [keys, mapValues, List.map_map, Function.comp_def]

section Keys

theorem keys_set (m : OrdMap κ ν) (k : κ) (v : ν) :
    (m.set k v).keys = if k ∈ m.keys then m.keys else m.keys ++ [k] :=
  keys_setEntry k v m.entries

theorem mem_keys_congr {m n : OrdMap κ ν} (h : ∀ k, n.get? k = m.get? k) (k : κ) :
    k ∈ n.keys ↔ k ∈ m.keys := by
  rw [mem_keys_iff, mem_keys_iff, h]

/-- Maps with the same lookups and the same order are the same. -/
theorem eq_of_keys {m n : OrdMap κ ν} (h : ∀ k, m.get? k = n.get? k) (hkeys : m.keys = n.keys) :
    m = n :=
  ext (entries_eq_of_keys h (List.Subset.refl _) (List.Subset.refl _) hkeys)

/-- A relation between the orders of two maps that a new last key keeps. It may
be exact, and is then equality. -/
class KeyOrder (R : List κ → List κ → Prop) where
  append : ∀ {xs ys k}, R xs ys → k ∉ xs → k ∉ ys → R (xs ++ [k]) (ys ++ [k])
  exact : Prop
  eq_of_exact : exact → ∀ {xs ys}, R xs ys → xs = ys

/-- The orders may differ at will. -/
def AnyOrder (_ _ : List κ) : Prop := True

/-- The maps had the orders `ks` and `ks'` once, and have since got the same keys. -/
def GrownFrom (ks ks' xs ys : List κ) : Prop := ∃ more, xs = ks ++ more ∧ ys = ks' ++ more

omit [DecidableEq κ] in
theorem GrownFrom.refl (ks ks' : List κ) : GrownFrom ks ks' ks ks' :=
  ⟨[], (List.append_nil ks).symm, (List.append_nil ks').symm⟩

instance : KeyOrder (@AnyOrder κ) where
  append _ _ _ := trivial
  exact := False
  eq_of_exact h := h.elim

instance : KeyOrder (@Eq (List κ)) where
  append h _ _ := by rw [h]
  exact := True
  eq_of_exact _ _ _ h := h

instance (ks ks' : List κ) : KeyOrder (GrownFrom ks ks') where
  append := by
    rintro xs ys k ⟨more, rfl, rfl⟩ - -
    exact ⟨more ++ [k], List.append_assoc _ _ _, List.append_assoc _ _ _⟩
  exact := False
  eq_of_exact h := h.elim

theorem keyOrder_set {R : List κ → List κ → Prop} [KeyOrder R] {m n : OrdMap κ ν}
    (h : ∀ k, n.get? k = m.get? k) (hR : R m.keys n.keys) (k : κ) (v w : ν) :
    R (m.set k v).keys (n.set k w).keys := by
  have hmem := mem_keys_congr h k
  rw [keys_set, keys_set]
  by_cases hk : k ∈ m.keys
  · rw [if_pos hk, if_pos (hmem.mpr hk)]
    exact hR
  · rw [if_neg hk, if_neg fun hn => hk (hmem.mp hn)]
    exact KeyOrder.append hR hk fun hn => hk (hmem.mp hn)

end Keys

section Sum

variable {M : Type*} [AddCommGroup M] (f : ν → M)

/-- The sum of a quantity over all values. -/
def sumValues (m : OrdMap κ ν) : M := (m.entries.map fun e => f e.2).sum

theorem sum_setEntry (k : κ) (v : ν) (es : List (κ × ν)) :
    ((setEntry k v es).map fun e => f e.2).sum + ((getEntry k es).map f).getD 0 =
      (es.map fun e => f e.2).sum + f v := by
  induction es with
  | nil => simp [setEntry, getEntry]
  | cons e es ih =>
    rw [setEntry, getEntry]
    split_ifs with hk
    · simp only [List.map_cons, List.sum_cons, Option.map_some, Option.getD_some]
      abel
    · rw [List.map_cons, List.sum_cons, List.map_cons, List.sum_cons, add_assoc, ih, add_assoc]

/-- Setting a key adds the new value and takes the old one away. -/
theorem sumValues_set (m : OrdMap κ ν) (k : κ) (v : ν) :
    (m.set k v).sumValues f = m.sumValues f - ((m.get? k).map f).getD 0 + f v := by
  have h := sum_setEntry f k v m.entries
  rw [sub_add_eq_add_sub]
  exact eq_sub_of_add_eq h

omit [DecidableEq κ] in
theorem sumValues_mapValues (g : ν → ν) (m : OrdMap κ ν) :
    (m.mapValues g).sumValues f = m.sumValues fun v => f (g v) := by
  unfold sumValues mapValues
  rw [List.map_map]
  rfl

theorem sumValues_eq_sum (m : OrdMap κ ν) :
    m.sumValues f = ∑ k ∈ m.keys.toFinset, ((m.get? k).map f).getD 0 := by
  have hentries : (m.entries.map fun e => f e.2) =
      m.keys.map fun k => ((m.get? k).map f).getD 0 := by
    rw [keys, List.map_map]
    apply List.map_congr_left
    intro e he
    simp only [Function.comp_apply, (m.mem_entries_iff e.1 e.2).mp he, Option.map_some,
      Option.getD_some]
  have hnodup : m.keys.Nodup := m.nodup
  rw [List.sum_toFinset _ hnodup, sumValues, hentries]

/-- Keys that are not there count as nothing. -/
theorem sumValues_eq_sum_of_subset (m : OrdMap κ ν) {K : Finset κ} (hK : m.keys.toFinset ⊆ K) :
    m.sumValues f = ∑ k ∈ K, ((m.get? k).map f).getD 0 := by
  rw [sumValues_eq_sum]
  refine Finset.sum_subset hK fun k _ hk => ?_
  rw [List.mem_toFinset, mem_keys_iff, ← Option.isSome_iff_exists, Option.not_isSome_iff_eq_none]
    at hk
  rw [hk]
  rfl

/-- Values that count as nothing do not matter. -/
theorem sumValues_congr {m n : OrdMap κ ν}
    (h : ∀ k, ((m.get? k).map f).getD 0 = ((n.get? k).map f).getD 0) :
    m.sumValues f = n.sumValues f := by
  have hzero {m : OrdMap κ ν} {k : κ} (hk : k ∉ m.keys.toFinset) : ((m.get? k).map f).getD 0 = 0 := by
    rw [List.mem_toFinset, mem_keys_iff, ← Option.isSome_iff_exists, Option.not_isSome_iff_eq_none]
      at hk
    rw [hk]
    rfl
  have hleft : m.keys.toFinset ⊆ m.keys.toFinset ∪ n.keys.toFinset := Finset.subset_union_left
  have hright : n.keys.toFinset ⊆ m.keys.toFinset ∪ n.keys.toFinset := Finset.subset_union_right
  rw [sumValues_eq_sum, sumValues_eq_sum, Finset.sum_subset hleft fun k _ hk => hzero hk,
    Finset.sum_subset hright fun k _ hk => hzero hk]
  exact Finset.sum_congr rfl fun k _ => h k

end Sum

section Sorting

variable {r : κ → κ → Bool}

/-- Sorting forgets the order in which the keys were set. -/
theorem sorted_eq_iff (htrans : ∀ a b c, r a b → r b c → r a c) (htotal : ∀ a b, r a b || r b a)
    (hanti : ∀ a b, r a b → r b a → a = b) {m n : OrdMap κ ν} :
    m.sorted r = n.sorted r ↔ ∀ k, m.get? k = n.get? k := by
  constructor
  · intro h
    exact get?_eq_of_perm (((m.sorted_perm r).symm.trans (h ▸ List.Perm.refl _)).trans
      (n.sorted_perm r))
  · intro h
    have hperm : (m.sorted r).Perm (n.sorted r) :=
      (m.sorted_perm r).trans ((perm_of_get?_eq h).trans (n.sorted_perm r).symm)
    have hpair (m : OrdMap κ ν) := m.sorted_pairwise htrans htotal
    refine hperm.eq_of_pairwise ?_ (hpair m) (hpair n)
    rintro ⟨j, v⟩ ⟨k, w⟩ hv hw hjk hkj
    obtain rfl : j = k := hanti j k hjk hkj
    have hv' := (m.mem_entries_iff j v).mp ((m.sorted_perm r).subset hv)
    have hw' := (n.mem_entries_iff j w).mp ((n.sorted_perm r).subset hw)
    rw [h, hw'] at hv'
    rw [Option.some.inj hv']

theorem get?_ofEntries_sorted (m : OrdMap κ ν) (k : κ) :
    (ofEntries (m.sorted r)).get? k = m.get? k :=
  get?_eq_of_perm (by rw [ofEntries_entries (m.sorted_nodup r)]; exact m.sorted_perm r) k

end Sorting

end OrdMap

end Lib
