import Mathlib

/-! A bounded set of processed ids: a set for the lookups, and a list of the same ids,
oldest first, that says which one to evict. -/

namespace Perps

structure ProcessedSet where
  max : ℕ
  seen : Finset String
  order : List String
  deriving DecidableEq

namespace ProcessedSet

def DEFAULT_MAX : ℕ := 100000

/-- The constructor. -/
def fresh (max : ℕ) : ProcessedSet := ⟨max, ∅, []⟩

def has (s : ProcessedSet) (id : String) : Bool := decide (id ∈ s.seen)

/-- `order.shift()`, and the evicted id leaves the set. -/
def evict (s : ProcessedSet) : ProcessedSet :=
  match s.order with
  | [] => s
  | evicted :: rest => { s with seen := s.seen.erase evicted, order := rest }

/-- True if the id is new, which is then recorded. -/
def add (s : ProcessedSet) (id : String) : ProcessedSet × Bool :=
  if s.has id then (s, false)
  else
    let s := { s with seen := insert id s.seen, order := s.order ++ [id] }
    (if s.order.length > s.max then s.evict else s, true)

def toJSON (s : ProcessedSet) : List String := s.order

def fromJSON (ids : List String) (max : Option ℕ) : ProcessedSet :=
  ids.foldl (fun s id => (s.add id).1) (fresh (max.getD DEFAULT_MAX))

/-- Add the ids one after the other, and collect those that were new. -/
def addAll (s : ProcessedSet) : List String → ProcessedSet × List String
  | [] => (s, [])
  | id :: ids =>
    let (s, new) := s.add id
    let (s, recorded) := addAll s ids
    (s, if new then id :: recorded else recorded)

/-! What a user of the set can observe -/

inductive Call where
  | add (id : String)
  | has (id : String)
  | toJSON

inductive Answer where
  | bool (b : Bool)
  | ids (ids : List String)
  deriving DecidableEq

def call (s : ProcessedSet) : Call → ProcessedSet × Answer
  | .add id => ((s.add id).1, .bool (s.add id).2)
  | .has id => (s, .bool (s.has id))
  | .toJSON => (s, .ids s.toJSON)

def answers (s : ProcessedSet) : List Call → List Answer
  | [] => []
  | c :: cs => (s.call c).2 :: answers (s.call c).1 cs

/-! The two containers in step -/

/-- The set and the list hold the same ids, each once and no more than `max` of them. -/
structure InStep (s : ProcessedSet) : Prop where
  mem : ∀ id, id ∈ s.seen ↔ id ∈ s.order
  nodup : s.order.Nodup
  bounded : s.order.length ≤ s.max

theorem fresh_inStep (max : ℕ) : (fresh max).InStep := ⟨by simp [fresh], .nil, Nat.zero_le _⟩

variable {s : ProcessedSet}

theorem InStep.has_iff (h : s.InStep) (id : String) : s.has id = true ↔ id ∈ s.order := by
  unfold has
  rw [decide_eq_true_eq, h.mem]

theorem add_of_has {id : String} (h : s.has id = true) : s.add id = (s, false) := if_pos h

theorem evict_order (s : ProcessedSet) : s.evict.order = s.order.tail := by
  unfold evict
  split
  · next h => rw [h, List.tail_nil]
  · next h => rw [h, List.tail_cons]

theorem evict_max (s : ProcessedSet) : s.evict.max = s.max := by
  unfold evict
  split <;> rfl

/-- An evicted id is nowhere else in the list. -/
theorem mem_evict (hmem : ∀ id, id ∈ s.seen ↔ id ∈ s.order) (hnodup : s.order.Nodup) (id : String) :
    id ∈ s.evict.seen ↔ id ∈ s.evict.order := by
  unfold evict
  split
  · exact hmem id
  · next evicted rest horder =>
    rw [horder, List.nodup_cons] at hnodup
    rw [Finset.mem_erase, hmem, horder, List.mem_cons]
    constructor
    · rintro ⟨hne, hid⟩
      exact hid.resolve_left hne
    · intro hid
      refine ⟨?_, Or.inr hid⟩
      rintro rfl
      exact hnodup.1 hid

/-- What recording a new id does: the oldest one makes room if there is none. -/
structure Recorded (s : ProcessedSet) (id : String) (r : ProcessedSet × Bool) : Prop where
  answer : r.2 = true
  max : r.1.max = s.max
  order : r.1.order = (s.order ++ [id]).drop ((s.order ++ [id]).length - s.max)
  inStep : r.1.InStep

theorem InStep.add_new (h : s.InStep) {id : String} (hnew : ¬ s.has id = true) :
    Recorded s id (s.add id) := by
  have hid : id ∉ s.order := (h.has_iff id).not.mp hnew
  have hbounded := h.bounded
  have hlen : (s.order ++ [id]).length = s.order.length + 1 := List.length_append
  have hnodup : (s.order ++ [id]).Nodup :=
    List.nodup_append.mpr ⟨h.nodup, List.nodup_singleton id, fun a ha b hb => by
      rw [List.mem_singleton.mp hb]
      exact fun hab => hid (hab ▸ ha)⟩
  have hmem (x : String) : x ∈ insert id s.seen ↔ x ∈ s.order ++ [id] := by
    rw [Finset.mem_insert, h.mem, List.mem_append, List.mem_singleton, or_comm]
  unfold add
  rw [if_neg hnew]
  dsimp only
  split_ifs with hfull
  · -- the list was full, and exactly one id is too many
    refine ⟨rfl, evict_max _, ?_, mem_evict hmem hnodup, ?_, ?_⟩
    · rw [evict_order, ← List.drop_one]
      congr 1
      omega
    · rw [evict_order]
      exact hnodup.sublist (List.tail_sublist _)
    · rw [evict_order, List.length_tail, evict_max]
      dsimp only
      omega
  · refine ⟨rfl, rfl, ?_, hmem, hnodup, not_lt.mp hfull⟩
    rw [Nat.sub_eq_zero_of_le (not_lt.mp hfull), List.drop_zero]

end ProcessedSet

end Perps
