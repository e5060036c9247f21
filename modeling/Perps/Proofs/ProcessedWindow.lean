import Perps.Proofs.Idempotence
import Perps.Streams.Idempotency

/-! The bounded set of processed ids is a sliding window: it knows the ids recorded last,
as many as it has room for, and comes back from its JSON as it was. -/

namespace Perps

open Engine

namespace ProcessedSet

variable {s : ProcessedSet}

/-- A set that has recorded `recorded`, from the first id on. -/
structure Window (max : ℕ) (recorded : List String) (s : ProcessedSet) : Prop where
  max_eq : s.max = max
  order : s.order = latest max recorded
  inStep : s.InStep

theorem window_fresh (max : ℕ) : Window max [] (fresh max) :=
  ⟨rfl, List.drop_nil.symm, fresh_inStep max⟩

section Window

variable {max : ℕ} {recorded : List String} (h : Window max recorded s)

include h

theorem Window.has_iff (id : String) : s.has id = true ↔ id ∈ latest max recorded := by
  rw [h.inStep.has_iff, h.order]

/-- What has been recorded before the window makes no difference to where it moves. -/
theorem Window.add_new {id : String} (hnew : ¬ s.has id = true) :
    (s.add id).2 = true ∧ Window max (recorded ++ [id]) (s.add id).1 := by
  have hadd := h.inStep.add_new hnew
  refine ⟨hadd.answer, hadd.max.trans h.max_eq, ?_, hadd.inStep⟩
  rw [hadd.order, h.max_eq, h.order]
  exact latest_append max recorded [id]

theorem Window.addAll (ids : List String) :
    Window max (recorded ++ (s.addAll ids).2) (s.addAll ids).1 := by
  induction ids generalizing s recorded with
  | nil =>
    show Window max (recorded ++ []) s
    rwa [List.append_nil]
  | cons id ids ih =>
    by_cases hold : s.has id = true
    · have hsame : s.addAll (id :: ids) = s.addAll ids := by
        simp only [ProcessedSet.addAll, add_of_has hold, Bool.false_eq_true, if_false]
      rw [hsame]
      exact ih h
    · obtain ⟨hanswer, hwindow⟩ := h.add_new hold
      have hnext : s.addAll (id :: ids) =
          (((s.add id).1.addAll ids).1, id :: ((s.add id).1.addAll ids).2) := by
        simp only [ProcessedSet.addAll, hanswer, if_true]
      rw [hnext, List.append_cons]
      exact ih hwindow

end Window

/-- Ids that have room are all recorded. -/
theorem fromJSON_eq {max : ℕ} {ids : List String} (hnodup : ids.Nodup) (hlen : ids.length ≤ max) :
    fromJSON ids (some max) = ⟨max, ids.toFinset, ids⟩ := by
  unfold fromJSON
  rw [Option.getD_some]
  induction ids using List.reverseRecOn with
  | nil => rfl
  | append_singleton ids id ih =>
    rw [List.length_append, List.length_singleton] at hlen
    obtain ⟨hids, -, hnew⟩ := List.nodup_append.mp hnodup
    have hnew : id ∉ ids := fun hid => hnew id hid id (List.mem_singleton_self id) rfl
    rw [List.foldl_append, ih hids (by omega)]
    have hset : insert id ids.toFinset = (ids ++ [id]).toFinset := by
      ext x
      simp
    show (add _ id).1 = _
    unfold add has
    rw [if_neg (by simpa using hnew)]
    dsimp only
    rw [if_neg (by simpa using hlen), hset]

/-- The JSON has all that the set knows. -/
theorem InStep.fromJSON_toJSON (h : s.InStep) : fromJSON s.toJSON (some s.max) = s := by
  have hseen : s.order.toFinset = s.seen := by
    ext id
    rw [List.mem_toFinset, h.mem]
  rw [toJSON, fromJSON_eq h.nodup h.bounded, hseen]

/-- After any ids have been added to a fresh set, it is the window of those recorded last. -/
theorem processedSet_window (max : ℕ) (ids : List String) :
    let r := (fresh max).addAll ids
    r.1.InStep ∧ r.1.max = max ∧ r.1.toJSON = latest max r.2 ∧
      (∀ id, r.1.has id = true ↔ id ∈ latest max r.2) ∧
      (∀ id, (r.1.add id).2 = true ↔ id ∉ latest max r.2) ∧
      (∀ id, id ∉ latest max r.2 → (r.1.add id).1.toJSON = latest max (r.2 ++ [id])) ∧
      (∀ id, id ∈ latest max r.2 → (r.1.add id).1 = r.1) ∧
      ∀ calls, (fromJSON r.1.toJSON (some max)).answers calls = r.1.answers calls := by
  intro r
  have h : Window max r.2 r.1 := (window_fresh max).addAll ids
  refine ⟨h.inStep, h.max_eq, h.order, h.has_iff, fun id => ?_, fun id hid => ?_, fun id hid => ?_,
    fun calls => ?_⟩
  · rw [← h.has_iff]
    constructor
    · intro hadd hhas
      rw [add_of_has hhas] at hadd
      cases hadd
    · exact fun hnew => (h.add_new hnew).1
  · exact (h.add_new (mt (h.has_iff id).mp hid)).2.order
  · rw [add_of_has ((h.has_iff id).mpr hid)]
  · have hsame := h.inStep.fromJSON_toJSON
    rw [h.max_eq] at hsame
    rw [hsame]

end ProcessedSet

end Perps
