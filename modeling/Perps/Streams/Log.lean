import Perps.Streams.Ids

/-! A stream: entries in the order of their ids, appended at the end. -/

namespace Perps

structure Entry (α : Type) where
  id : StreamId
  data : α
  deriving DecidableEq

structure Log (α : Type) where
  entries : List (Entry α)
  sorted : entries.Pairwise fun x y => x.id < y.id
  positive : ∀ x ∈ entries, StreamId.zero < x.id

namespace Log

variable {α : Type}

def empty : Log α := ⟨[], .nil, by simp⟩

/-- `XADD`: the id is greater than every id of the stream. -/
def add (log : Log α) (x : Entry α) : Option (Log α) :=
  if h : StreamId.zero < x.id ∧ ∀ y ∈ log.entries, y.id < x.id then
    some
      { entries := log.entries ++ [x]
        sorted := List.pairwise_append.mpr ⟨log.sorted, List.pairwise_singleton _ _, fun y hy _ hz =>
          List.mem_singleton.mp hz ▸ h.2 y hy⟩
        positive := fun y hy => (List.mem_append.mp hy).elim (log.positive y) fun hy =>
          List.mem_singleton.mp hy ▸ h.1 }
  else none

def before (log : Log α) (id : StreamId) : List (Entry α) := log.entries.filter fun x => x.id < id

def through (log : Log α) (id : StreamId) : List (Entry α) := log.entries.filter fun x => x.id ≤ id

def after (log : Log α) (id : StreamId) : List (Entry α) := log.entries.filter fun x => id < x.id

def between (log : Log α) (lo hi : StreamId) : List (Entry α) :=
  log.entries.filter fun x => lo < x.id ∧ x.id < hi

theorem mem_after {log : Log α} {id : StreamId} {x : Entry α} :
    x ∈ log.after id ↔ x ∈ log.entries ∧ id < x.id := by
  simp [after]

theorem mem_between {log : Log α} {lo hi : StreamId} {x : Entry α} :
    x ∈ log.between lo hi ↔ x ∈ log.entries ∧ lo < x.id ∧ x.id < hi := by
  simp [between]

/-- In a sorted list, the elements that satisfy a property that holds of all
earlier ones come first. -/
theorem filter_append_filter_not {xs : List (Entry α)} (hxs : xs.Pairwise fun x y => x.id < y.id)
    {p : Entry α → Bool} (hp : ∀ x y, x.id < y.id → p y = true → p x = true) :
    xs.filter p ++ xs.filter (fun x => !p x) = xs := by
  induction hxs with
  | nil => rfl
  | @cons x xs hx hxs ih =>
    cases hpx : p x with
    | true => simp [hpx, ih]
    | false =>
      have hnone : xs.filter p = [] := by
        apply List.filter_eq_nil_iff.mpr
        intro y hy hpy
        rw [hp x y (hx y hy) hpy] at hpx
        cases hpx
      rw [hnone, List.nil_append] at ih
      simp [hpx, hnone, ih]

theorem through_append_after (log : Log α) (id : StreamId) :
    log.through id ++ log.after id = log.entries := by
  have h := filter_append_filter_not log.sorted (p := fun x => decide (x.id ≤ id))
    fun x y hlt hy => by simpa using hlt.le.trans (by simpa using hy)
  unfold through after
  simpa only [← decide_not, not_le] using h

theorem through_append_between (log : Log α) {lo hi : StreamId} (h : lo < hi) :
    log.through lo ++ log.between lo hi = log.before hi := by
  have hsorted : (log.before hi).Pairwise fun x y => x.id < y.id :=
    log.sorted.sublist List.filter_sublist
  have hsplit := filter_append_filter_not hsorted (p := fun x => decide (x.id ≤ lo))
    fun x y hlt hy => by simpa using hlt.le.trans (by simpa using hy)
  rw [← hsplit]
  unfold before through between
  rw [List.filter_filter, List.filter_filter]
  congr 1
  · apply List.filter_congr
    intro x _
    by_cases hx : x.id ≤ lo
    · simp [hx, hx.trans_lt h]
    · simp [hx]
  · apply List.filter_congr
    intro x _
    by_cases hx : x.id ≤ lo
    · simp [hx, not_lt.mpr hx]
    · simp [hx, not_le.mp hx]

theorem after_eq_append (log : Log α) {lo hi : StreamId} (h : lo ≤ hi) :
    log.after lo = (log.after lo).filter (fun x => x.id ≤ hi) ++ log.after hi := by
  have hsorted : (log.after lo).Pairwise fun x y => x.id < y.id :=
    log.sorted.sublist List.filter_sublist
  have hsplit := filter_append_filter_not hsorted (p := fun x => decide (x.id ≤ hi))
    fun x y hlt hy => by simpa using hlt.le.trans (by simpa using hy)
  have hrest : (log.after lo).filter (fun x => !decide (x.id ≤ hi)) = log.after hi := by
    unfold after
    rw [List.filter_filter]
    refine List.filter_congr fun x _ => ?_
    by_cases hx : hi < x.id
    · simp [hx, h.trans_lt hx]
    · simp [hx, not_lt.mp hx]
  rw [hrest] at hsplit
  exact hsplit.symm

/-- An id belongs to one entry. -/
theorem eq_of_id {log : Log α} {x y : Entry α} (hx : x ∈ log.entries) (hy : y ∈ log.entries)
    (h : x.id = y.id) : x = y := by
  have hids : (log.entries.map Entry.id).Nodup :=
    List.pairwise_map.mpr (log.sorted.imp fun hlt => hlt.ne)
  exact List.inj_on_of_nodup_map hids hx hy h

theorem through_eq {log : Log α} {x : Entry α} (hx : x ∈ log.entries) :
    log.through x.id = log.before x.id ++ [x] := by
  obtain ⟨as, bs, hsplit⟩ := List.append_of_mem hx
  have hsorted := log.sorted
  rw [hsplit, List.pairwise_append, List.pairwise_cons] at hsorted
  obtain ⟨-, ⟨hbs, -⟩, has⟩ := hsorted
  have h1 : as.filter (fun y => decide (y.id ≤ x.id)) = as :=
    List.filter_eq_self.mpr fun y hy => by simpa using (has y hy x List.mem_cons_self).le
  have h2 : as.filter (fun y => decide (y.id < x.id)) = as :=
    List.filter_eq_self.mpr fun y hy => by simpa using has y hy x List.mem_cons_self
  have h3 : bs.filter (fun y => decide (y.id ≤ x.id)) = [] :=
    List.filter_eq_nil_iff.mpr fun y hy => by simpa using hbs y hy
  have h4 : bs.filter (fun y => decide (y.id < x.id)) = [] :=
    List.filter_eq_nil_iff.mpr fun y hy => by simpa using (hbs y hy).le
  unfold through before
  rw [hsplit, List.filter_append, List.filter_append, List.filter_cons, List.filter_cons, h1, h2,
    h3, h4]
  simp

theorem through_zero (log : Log α) : log.through .zero = [] :=
  List.filter_eq_nil_iff.mpr fun x hx => by simpa using log.positive x hx

/-- The id is 0 or that of an entry. -/
def Marks (log : Log α) (id : StreamId) : Prop := id = .zero ∨ ∃ x ∈ log.entries, x.id = id

/-- There is nothing between a mark and the end if nothing comes after it. -/
theorem Marks.le {log : Log α} {id bound : StreamId} (h : log.Marks id)
    (hbound : log.after bound = []) : id ≤ bound := by
  rcases h with rfl | ⟨x, hx, rfl⟩
  · exact bound.zero_le
  · by_contra hlt
    have hmem := mem_after.mpr ⟨hx, not_le.mp hlt⟩
    rw [hbound] at hmem
    cases hmem

/-- The id of the last entry, or 0. -/
def lastId (log : Log α) : StreamId := (log.entries.getLast?.map Entry.id).getD .zero

theorem marks_lastId (log : Log α) : log.Marks log.lastId := by
  unfold lastId
  cases hlast : log.entries.getLast? with
  | none => exact Or.inl rfl
  | some x => exact Or.inr ⟨x, List.mem_of_getLast? hlast, rfl⟩

theorem le_lastId {log : Log α} {x : Entry α} (hx : x ∈ log.entries) : x.id ≤ log.lastId := by
  obtain ⟨ys, z, hsplit⟩ := List.eq_nil_or_concat log.entries |>.resolve_left (List.ne_nil_of_mem hx)
  have hsorted := log.sorted
  unfold lastId
  rw [List.concat_eq_append] at hsplit
  rw [hsplit] at hx hsorted ⊢
  rw [List.getLast?_concat]
  rcases List.mem_append.mp hx with hx | hx
  · exact ((List.pairwise_append.mp hsorted).2.2 x hx z (List.mem_singleton_self z)).le
  · rw [List.mem_singleton.mp hx]
    exact le_rfl

theorem through_lastId (log : Log α) : log.through log.lastId = log.entries :=
  List.filter_eq_self.mpr fun _ hx => by simpa using le_lastId hx

/-- The last entry after a mark, if there is one, is the last of the log. -/
theorem Marks.last_after {log : Log α} {id : StreamId} (h : log.Marks id) :
    ((log.after id).getLast?.map Entry.id).getD id = log.lastId := by
  cases hlast : (log.after id).getLast? with
  | none =>
    refine le_antisymm ?_ (log.marks_lastId.le (List.getLast?_eq_none_iff.mp hlast))
    rcases h with rfl | ⟨x, hx, rfl⟩
    · exact log.lastId.zero_le
    · exact le_lastId hx
  | some x =>
    obtain ⟨ys, hys⟩ := List.getLast?_eq_some_iff.mp hlast
    have hsplit := log.through_append_after id
    rw [hys, ← List.append_assoc] at hsplit
    unfold lastId
    rw [← hsplit, List.getLast?_concat]
    rfl

/-- A batch of the entries after an id has all those up to its last. -/
theorem mem_take_after {log : Log α} {id : StreamId} {count : ℕ} {x last : Entry α}
    (hlast : ((log.after id).take count).getLast? = some last) (hx : x ∈ log.after id)
    (hle : x.id ≤ last.id) : x ∈ (log.after id).take count := by
  have hsorted : (log.after id).Pairwise fun x y => x.id < y.id :=
    log.sorted.sublist List.filter_sublist
  rw [← List.take_append_drop count (log.after id)] at hx hsorted
  rcases List.mem_append.mp hx with hx | hx
  · exact hx
  · have hlt := (List.pairwise_append.mp hsorted).2.2 last (List.mem_of_getLast? hlast) x hx
    exact absurd hle (not_le.mpr hlt)

theorem after_of_split {log : Log α} {pre post : List (Entry α)} {x : Entry α}
    (h : log.entries = pre ++ x :: post) : log.after x.id = post ∧ ∀ y ∈ pre, y.id < x.id := by
  have hsorted := log.sorted
  rw [h, List.pairwise_append, List.pairwise_cons] at hsorted
  obtain ⟨-, ⟨hpost, -⟩, hpre⟩ := hsorted
  have hlt : ∀ y ∈ pre, y.id < x.id := fun y hy => hpre y hy x List.mem_cons_self
  have hnone : pre.filter (fun y => decide (x.id < y.id)) = [] :=
    List.filter_eq_nil_iff.mpr fun y hy => by simpa using (hlt y hy).le
  have hall : post.filter (fun y => decide (x.id < y.id)) = post :=
    List.filter_eq_self.mpr fun y hy => by simpa using hpost y hy
  refine ⟨?_, hlt⟩
  unfold after
  rw [h, List.filter_append, List.filter_cons, hnone, hall]
  simp

section Add

variable {log log' : Log α} {x : Entry α}

theorem add_eq (h : log.add x = some log') :
    log'.entries = log.entries ++ [x] ∧ StreamId.zero < x.id ∧ ∀ y ∈ log.entries, y.id < x.id := by
  unfold add at h
  split_ifs at h with hx
  obtain rfl := Option.some.inj h
  exact ⟨rfl, hx⟩

theorem mem_of_add (h : log.add x = some log') {y : Entry α} :
    y ∈ log'.entries ↔ y ∈ log.entries ∨ y = x := by
  rw [(add_eq h).1]
  simp

/-- The new entry comes after every mark. -/
theorem Marks.lt_of_add {id : StreamId} (hid : log.Marks id) (h : log.add x = some log') :
    id < x.id := by
  obtain ⟨-, hpos, hlast⟩ := add_eq h
  rcases hid with rfl | ⟨y, hy, rfl⟩
  · exact hpos
  · exact hlast y hy

theorem Marks.add {id : StreamId} (hid : log.Marks id) (h : log.add x = some log') :
    log'.Marks id := by
  refine hid.imp_right ?_
  rintro ⟨y, hy, rfl⟩
  exact ⟨y, (mem_of_add h).mpr (Or.inl hy), rfl⟩

theorem through_add {id : StreamId} (hid : log.Marks id) (h : log.add x = some log') :
    log'.through id = log.through id := by
  have hlt := hid.lt_of_add h
  unfold through
  rw [(add_eq h).1, List.filter_append]
  simp [hlt]

theorem before_add {id : StreamId} (hid : log.Marks id) (h : log.add x = some log') :
    log'.before id = log.before id := by
  have hlt := hid.lt_of_add h
  unfold before
  rw [(add_eq h).1, List.filter_append]
  simp [hlt.le]

theorem after_add {x : Entry α} {log' : Log α} (h : log.add x = some log') {id : StreamId}
    (hid : log.Marks id) : log'.after id = log.after id ++ [x] := by
  have hlt := hid.lt_of_add h
  unfold after
  rw [(add_eq h).1, List.filter_append]
  simp [hlt]

end Add

end Log

end Perps
