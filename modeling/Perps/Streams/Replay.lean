import Perps.Streams.Log

/-! Reading a stream page by page. Others may append between two reads, so that
every read finds its own stream, of which the streams of earlier reads are prefixes. -/

namespace Perps

variable {α : Type}

/-- Where a range begins: `"-"`, or past an id as in `"(5-0"`. -/
inductive RangeStart where
  | first
  | past (id : StreamId)
  deriving DecidableEq

namespace RangeStart

def Admits (start : RangeStart) (id : StreamId) : Prop :=
  match start with
  | first => True
  | past lo => lo < id

instance (start : RangeStart) (id : StreamId) : Decidable (start.Admits id) := by
  cases start
  · exact .isTrue trivial
  · exact inferInstanceAs (Decidable (_ < _))

/-- The entries that a range without a count returns. -/
def range (start : RangeStart) (log : Log α) : List (Entry α) :=
  log.entries.filter fun x => start.Admits x.id

end RangeStart

/-- `XRANGE stream start + COUNT count`. -/
def xRange (log : Log α) (start : RangeStart) (count : ℕ) : List (Entry α) :=
  (start.range log).take count

/-- The entries that the loop yields in its next `rounds` rounds, and whether it has returned by
then. `logs n` is the stream as the `n`-th read finds it. -/
def readPages (logs : ℕ → Log α) (pageSize : ℕ) : ℕ → ℕ → RangeStart → List (Entry α) × Bool
  | 0, _, _ => ([], false)
  | rounds + 1, n, start =>
    let page := xRange (logs n) start pageSize
    match page.getLast? with
    | none => ([], true)
    | some last =>
      if page.length < pageSize then (page, true)
      else
        let more := readPages logs pageSize rounds (n + 1) (.past last.id)
        (page ++ more.1, more.2)

/-- ``afterId === "0" ? "-" : `(${afterId}` ``. -/
def startAfter (afterId : StreamId) : RangeStart :=
  if afterId = .zero then .first else .past afterId

def readRange (logs : ℕ → Log α) (afterId : StreamId) (pageSize rounds : ℕ) :
    List (Entry α) × Bool :=
  readPages logs pageSize rounds 0 (startAfter afterId)

/-- Nobody but appenders touches the stream between the reads. -/
def AppendedTo (logs : ℕ → Log α) : Prop := ∀ n, (logs n).entries <+: (logs (n + 1)).entries

theorem AppendedTo.le {logs : ℕ → Log α} (h : AppendedTo logs) {m n : ℕ} (hmn : m ≤ n) :
    (logs m).entries <+: (logs n).entries := by
  induction n, hmn using Nat.le_induction with
  | base => exact List.prefix_refl _
  | succ n _ ih => exact ih.trans (h n)

namespace RangeStart

variable {start : RangeStart} {log log' : Log α} {count : ℕ}

theorem range_past (log : Log α) (id : StreamId) : (past id).range log = log.after id :=
  List.filter_congr fun _ _ => rfl

theorem range_first (log : Log α) : first.range log = log.entries :=
  List.filter_eq_self.mpr fun _ _ => rfl

theorem range_appended (start : RangeStart) (h : log.entries <+: log'.entries) :
    start.range log <+: start.range log' := h.filter _

theorem range_startAfter (afterId : StreamId) (log : Log α) :
    (startAfter afterId).range log = log.after afterId := by
  unfold startAfter
  split_ifs with hzero
  · rw [range_first, hzero]
    exact (List.filter_eq_self.mpr fun x hx => decide_eq_true (log.positive x hx)).symm
  · exact range_past log afterId

theorem range_sorted (start : RangeStart) (log : Log α) :
    (start.range log).Pairwise fun x y => x.id < y.id := log.sorted.sublist List.filter_sublist

/-- Past the last entry of a page comes the rest of the range, whatever has been appended. -/
theorem range_split (h : log.entries <+: log'.entries) {last : Entry α}
    (hlast : (xRange log start count).getLast? = some last) :
    start.range log' = xRange log start count ++ (past last.id).range log' := by
  have hpage : xRange log start count <+: start.range log' :=
    (List.take_prefix _ _).trans (start.range_appended h)
  obtain ⟨rest, hrest⟩ := hpage
  obtain ⟨init, hinit⟩ := List.getLast?_eq_some_iff.mp hlast
  have hsorted := start.range_sorted log'
  have hmem : last ∈ start.range log' := hrest ▸ List.mem_append_left _ (List.mem_of_getLast? hlast)
  have hadmits : start.Admits last.id := of_decide_eq_true (List.mem_filter.mp hmem).2
  rw [← hrest, hinit, List.append_assoc, List.singleton_append, List.pairwise_append,
    List.pairwise_cons] at hsorted
  obtain ⟨-, ⟨hafter, -⟩, hbefore⟩ := hsorted
  -- what a later read admits, this one did
  have hpast : (past last.id).range log' =
      (start.range log').filter fun x => (past last.id).Admits x.id := by
    unfold range
    rw [List.filter_filter]
    refine List.filter_congr fun x _ => ?_
    have himp : (past last.id).Admits x.id → start.Admits x.id := by
      intro hx
      cases start with
      | first => trivial
      | past lo => exact lt_trans hadmits hx
    by_cases hx : (past last.id).Admits x.id
    · simp [hx, himp hx]
    · simp [hx]
  rw [hpast, ← hrest, List.filter_append, hinit]
  have hdropped : (init ++ [last]).filter (fun x => (past last.id).Admits x.id) = [] := by
    refine List.filter_eq_nil_iff.mpr fun x hx => ?_
    simp only [decide_eq_true_eq]
    rcases List.mem_append.mp hx with hx | hx
    · exact (hbefore x hx last List.mem_cons_self).not_gt
    · rw [List.mem_singleton.mp hx]
      exact lt_irrefl last.id
  have hkept : rest.filter (fun x => (past last.id).Admits x.id) = rest :=
    List.filter_eq_self.mpr fun x hx => decide_eq_true (hafter x hx)
  rw [hdropped, hkept, List.nil_append]

end RangeStart

section Pages

variable {logs : ℕ → Log α} {pageSize : ℕ}

/-- What one round of the loop does, by the page it reads. -/
inductive Round (logs : ℕ → Log α) (pageSize rounds n : ℕ) (start : RangeStart) :
    List (Entry α) × Bool → Prop
  | empty (h : xRange (logs n) start pageSize = []) : Round logs pageSize rounds n start ([], true)
  | short (h : (xRange (logs n) start pageSize).length < pageSize) :
    Round logs pageSize rounds n start (xRange (logs n) start pageSize, true)
  | full {last : Entry α} (h : (xRange (logs n) start pageSize).getLast? = some last)
    (hlen : ¬ (xRange (logs n) start pageSize).length < pageSize) :
    Round logs pageSize rounds n start
      (xRange (logs n) start pageSize ++
        (readPages logs pageSize rounds (n + 1) (.past last.id)).1,
        (readPages logs pageSize rounds (n + 1) (.past last.id)).2)

theorem readPages_succ (logs : ℕ → Log α) (pageSize rounds n : ℕ) (start : RangeStart) :
    Round logs pageSize rounds n start (readPages logs pageSize (rounds + 1) n start) := by
  unfold readPages
  dsimp only
  cases hlast : (xRange (logs n) start pageSize).getLast? with
  | none => exact .empty (List.getLast?_eq_none_iff.mp hlast)
  | some last =>
    dsimp only
    split_ifs with hlen
    · exact .short hlen
    · exact .full hlast hlen

/-- A page that is not full is all there is. -/
theorem xRange_eq_range {log : Log α} {start : RangeStart} {count : ℕ}
    (h : (xRange log start count).length < count) : xRange log start count = start.range log := by
  rw [xRange, List.length_take] at h
  exact List.take_of_length_le (by omega)

theorem xRange_eq_nil {log : Log α} {start : RangeStart} {count : ℕ} (hcount : 1 ≤ count)
    (h : xRange log start count = []) : start.range log = [] := by
  rw [← xRange_eq_range (by rw [h]; exact hcount), h]

/-- What has been yielded is a first part of what the stream holds by then. -/
theorem readPages_prefix (hlogs : AppendedTo logs) (pageSize rounds n : ℕ) (start : RangeStart) :
    (readPages logs pageSize rounds n start).1 <+: start.range (logs (n + rounds)) := by
  induction rounds generalizing n start with
  | zero => exact List.nil_prefix
  | succ rounds ih =>
    have hround := readPages_succ logs pageSize rounds n start
    generalize readPages logs pageSize (rounds + 1) n start = r at hround
    cases hround with
    | empty => exact List.nil_prefix
    | short =>
      exact (List.take_prefix _ _).trans (start.range_appended (hlogs.le (Nat.le_add_right n _)))
    | @full last hlast _ =>
      have ih := ih (n + 1) (.past last.id)
      rw [Nat.add_right_comm n 1 rounds] at ih
      rw [RangeStart.range_split (hlogs.le (Nat.le_add_right n (rounds + 1))) hlast]
      exact (List.prefix_append_right_inj _).mpr ih

/-- When the loop returns, nothing that the first read could see is missing. -/
theorem readPages_complete (hlogs : AppendedTo logs) (hsize : 1 ≤ pageSize) {rounds n : ℕ}
    {start : RangeStart} (h : (readPages logs pageSize rounds n start).2 = true) :
    start.range (logs n) <+: (readPages logs pageSize rounds n start).1 := by
  induction rounds generalizing n start with
  | zero => cases h
  | succ rounds ih =>
    have hround := readPages_succ logs pageSize rounds n start
    generalize readPages logs pageSize (rounds + 1) n start = r at hround h
    cases hround with
    | empty hpage => rw [xRange_eq_nil hsize hpage]
    | short hlen => rw [xRange_eq_range hlen]
    | @full last hlast _ =>
      rw [RangeStart.range_split (List.prefix_refl _) hlast]
      exact (List.prefix_append_right_inj _).mpr
        (((RangeStart.past last.id).range_appended (hlogs n)).trans (ih h))

/-- More rounds change nothing once the loop has returned. -/
theorem readPages_returned {rounds n : ℕ} {start : RangeStart}
    (h : (readPages logs pageSize rounds n start).2 = true) (more : ℕ) :
    readPages logs pageSize (rounds + more) n start = readPages logs pageSize rounds n start := by
  induction rounds generalizing n start with
  | zero => cases h
  | succ rounds ih =>
    rw [Nat.add_right_comm]
    unfold readPages at h ⊢
    dsimp only at h ⊢
    cases hlast : (xRange (logs n) start pageSize).getLast? with
    | none => rfl
    | some last =>
      rw [hlast] at h
      dsimp only at h ⊢
      split_ifs at h ⊢
      · rfl
      · rw [ih h]

/-- A bound on what the reads can find bounds the rounds, as every full page has an entry. -/
theorem readPages_returns (hlogs : AppendedTo logs) (hsize : 1 ≤ pageSize) {bound n : ℕ}
    {start : RangeStart} (h : ∀ m ≥ n, (start.range (logs m)).length ≤ bound) :
    (readPages logs pageSize (bound + 1) n start).2 = true := by
  induction bound generalizing n start with
  | zero =>
    have hround := readPages_succ logs pageSize 0 n start
    generalize readPages logs pageSize (0 + 1) n start = r at hround
    cases hround with
    | empty | short => rfl
    | full hlast =>
      have hnil := List.length_eq_zero_iff.mp (Nat.le_zero.mp (h n le_rfl))
      rw [xRange, hnil, List.take_nil] at hlast
      cases hlast
  | succ bound ih =>
    have hround := readPages_succ logs pageSize (bound + 1) n start
    generalize readPages logs pageSize (bound + 1 + 1) n start = r at hround
    cases hround with
    | empty | short => rfl
    | @full last hlast hlen =>
      refine ih fun m hm => ?_
      have hm' := h m (by omega)
      rw [RangeStart.range_split (hlogs.le (by omega : n ≤ m)) hlast, List.length_append] at hm'
      omega

end Pages

end Perps
