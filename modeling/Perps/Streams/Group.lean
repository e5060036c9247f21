import Perps.Streams.Log

/-! A consumer group: how far the stream has been delivered, and the pending list
of the entries that have been delivered and not acknowledged. -/

namespace Perps

structure PendingEntry where
  id : StreamId
  deliveriesCounter : ℕ
  deriving DecidableEq

structure Group where
  lastDelivered : StreamId
  pending : List PendingEntry
  deriving DecidableEq

structure StreamMessage (α : Type) extends Entry α where
  /-- How many times this message has been delivered (1 on first delivery). -/
  deliveries : ℕ
  deriving DecidableEq

namespace Group

variable {α : Type}

/-- `ensureGroup`: the group starts before the first entry. -/
def create : Group := ⟨.zero, []⟩

/-- `XREADGROUP >` of at most `count` entries. -/
def readNew (group : Group) (log : Log α) (count : ℕ) : Group × List (StreamMessage α) :=
  let batch := (log.after group.lastDelivered).take count
  ({ lastDelivered := (batch.getLast?.map Entry.id).getD group.lastDelivered
     pending := group.pending ++ batch.map fun x => ⟨x.id, 1⟩ },
    batch.map fun x => { x with deliveries := 1 })

/-- The counters of the first `n` pending entries, for however many were claimed. -/
def deliveryCounts (group : Group) (n : ℕ) (id : StreamId) : Option ℕ :=
  ((group.pending.take n).find? fun p => p.id = id).map PendingEntry.deliveriesCounter

/-- The entries that `XAUTOCLAIM` takes: at most `count` of those `idle`, which have been
pending for long enough. -/
def claimable (group : Group) (idle : List StreamId) (count : ℕ) : List StreamId :=
  ((group.pending.map PendingEntry.id).filter fun id => id ∈ idle).take count

def claim (group : Group) (claimed : List StreamId) : Group :=
  { group with
    pending := group.pending.map fun p =>
      if p.id ∈ claimed then { p with deliveriesCounter := p.deliveriesCounter + 1 } else p }

/-- `XAUTOCLAIM`, and what it brings with the counters read after it. -/
def reclaimAbandoned (group : Group) (log : Log α) (idle : List StreamId) (count : ℕ) :
    Group × List (StreamMessage α) :=
  let claimed := group.claimable idle count
  let group := group.claim claimed
  let valid := log.entries.filter fun x => x.id ∈ claimed
  (group, valid.map fun x =>
    { x with deliveries := (deliveryCounts group valid.length x.id).getD 1 })

/-- `XACK`. -/
def ack (group : Group) (id : StreamId) : Group :=
  { group with pending := group.pending.filter fun p => p.id ≠ id }

/-- The entry was delivered and has left the pending list, which only an
acknowledgement takes it off. -/
def Acked (group : Group) (id : StreamId) : Prop :=
  id ≤ group.lastDelivered ∧ id ∉ group.pending.map PendingEntry.id

instance (group : Group) (id : StreamId) : Decidable (group.Acked id) :=
  inferInstanceAs (Decidable (_ ∧ _))

/-- A batch of new entries follows what has been delivered. -/
theorem mem_readNew {group : Group} {log : Log α} {count : ℕ} {msg : StreamMessage α}
    (h : msg ∈ (group.readNew log count).2) : msg.toEntry ∈ log.after group.lastDelivered := by
  obtain ⟨x, hx, rfl⟩ := List.mem_map.mp h
  exact List.mem_of_mem_take hx

theorem mem_reclaimAbandoned {group : Group} {log : Log α} {idle : List StreamId} {count : ℕ}
    {msg : StreamMessage α} (h : msg ∈ (group.reclaimAbandoned log idle count).2) :
    msg.toEntry ∈ log.entries := by
  obtain ⟨x, hx, rfl⟩ := List.mem_map.mp h
  exact List.mem_of_mem_filter hx

/-- The pending list is in the order of the ids, and all of it has been delivered. -/
structure WellFormed (group : Group) : Prop where
  sorted : group.pending.Pairwise fun p q => p.id < q.id
  delivered : ∀ p ∈ group.pending, p.id ≤ group.lastDelivered

section Claim

variable {group : Group} {log : Log α} {count : ℕ} {idle claimed : List StreamId}

theorem mem_claimable {id : StreamId} (h : id ∈ group.claimable idle count) :
    id ∈ group.pending.map PendingEntry.id :=
  List.mem_of_mem_filter (List.mem_of_mem_take h)

theorem claim_ids (group : Group) (claimed : List StreamId) :
    (group.claim claimed).pending.map PendingEntry.id = group.pending.map PendingEntry.id := by
  unfold claim
  rw [List.map_map]
  refine List.map_congr_left fun p _ => ?_
  rw [Function.comp_apply]
  split_ifs <;> rfl

theorem eq_of_deliveryCounts {n counter : ℕ} {id : StreamId}
    (h : deliveryCounts group n id = some counter) :
    ∃ p ∈ group.pending.take n, p.id = id ∧ p.deliveriesCounter = counter := by
  obtain ⟨p, hfind, rfl⟩ := Option.map_eq_some_iff.mp h
  exact ⟨p, List.mem_of_find?_eq_some hfind, by simpa using List.find?_some hfind, rfl⟩

theorem deliveryCounts_eq_none {n : ℕ} {id : StreamId} :
    deliveryCounts group n id = none ↔ id ∉ (group.pending.take n).map PendingEntry.id := by
  unfold deliveryCounts
  rw [Option.map_eq_none_iff, List.find?_eq_none, List.mem_map]
  simp

theorem readNew_lastDelivered_le :
    group.lastDelivered ≤ (group.readNew log count).1.lastDelivered := by
  unfold readNew
  dsimp only
  cases hlast : ((log.after group.lastDelivered).take count).getLast? with
  | none => exact le_rfl
  | some x =>
    exact (Log.mem_after.mp (List.mem_of_mem_take (List.mem_of_getLast? hlast))).2.le

theorem readNew_batch_le {x : Entry α} (hx : x ∈ (log.after group.lastDelivered).take count) :
    x.id ≤ (group.readNew log count).1.lastDelivered := by
  have hsorted : ((log.after group.lastDelivered).take count).Pairwise fun x y => x.id < y.id :=
    (log.sorted.sublist List.filter_sublist).sublist (List.take_sublist _ _)
  obtain ⟨ys, z, hsplit⟩ := (List.eq_nil_or_concat _).resolve_left (List.ne_nil_of_mem hx)
  unfold readNew
  dsimp only
  rw [List.concat_eq_append] at hsplit
  rw [hsplit] at hx hsorted ⊢
  rw [List.getLast?_concat]
  rcases List.mem_append.mp hx with hx | hx
  · exact ((List.pairwise_append.mp hsorted).2.2 x hx z (List.mem_singleton_self z)).le
  · rw [List.mem_singleton.mp hx]
    exact le_rfl

theorem WellFormed.create : create.WellFormed :=
  ⟨.nil, fun _ hp => absurd hp List.not_mem_nil⟩

theorem WellFormed.readNew (h : group.WellFormed) : (group.readNew log count).1.WellFormed := by
  constructor
  · refine List.pairwise_append.mpr ⟨h.sorted, ?_, fun p hp q hq => ?_⟩
    · exact List.pairwise_map.mpr
        ((log.sorted.sublist List.filter_sublist).sublist (List.take_sublist _ _))
    · obtain ⟨x, hx, rfl⟩ := List.mem_map.mp hq
      exact (h.delivered p hp).trans_lt (Log.mem_after.mp (List.mem_of_mem_take hx)).2
  · intro p hp
    rcases List.mem_append.mp hp with hp | hp
    · exact (h.delivered p hp).trans readNew_lastDelivered_le
    · obtain ⟨x, hx, rfl⟩ := List.mem_map.mp hp
      exact readNew_batch_le hx

theorem WellFormed.claim (h : group.WellFormed) : (group.claim claimed).WellFormed := by
  have hids := group.claim_ids claimed
  constructor
  · have hsorted : (group.pending.map PendingEntry.id).Pairwise (· < ·) :=
      List.pairwise_map.mpr h.sorted
    rw [← hids] at hsorted
    exact List.pairwise_map.mp hsorted
  · intro p hp
    obtain ⟨q, hq, hqp⟩ := List.mem_map.mp (hids ▸ List.mem_map_of_mem hp)
    exact hqp ▸ h.delivered q hq

theorem WellFormed.ack (h : group.WellFormed) (id : StreamId) : (group.ack id).WellFormed :=
  ⟨h.sorted.sublist List.filter_sublist, fun p hp => h.delivered p (List.mem_of_mem_filter hp)⟩

end Claim

/-! What is acknowledged -/

section Acked

variable {group : Group} {log : Log α} {count : ℕ} {idle : List StreamId}

/-- Delivering new entries acknowledges none. -/
theorem acked_readNew {x : Entry α} (hx : x ∈ log.entries)
    (h : (group.readNew log count).1.Acked x.id) : group.Acked x.id := by
  obtain ⟨hle, hout⟩ := h
  simp only [readNew, List.map_append, List.mem_append, not_or, List.map_map] at hle hout
  refine ⟨?_, hout.1⟩
  by_contra hlt
  have hafter := Log.mem_after.mpr ⟨hx, not_le.mp hlt⟩
  cases hlast : ((log.after group.lastDelivered).take count).getLast? with
  | none =>
    rw [hlast] at hle
    exact hlt hle
  | some z =>
    rw [hlast] at hle
    exact hout.2 (List.mem_map_of_mem (Log.mem_take_after hlast hafter hle))

theorem marks_readNew (h : log.Marks group.lastDelivered) :
    log.Marks (group.readNew log count).1.lastDelivered := by
  unfold readNew
  dsimp only
  cases hlast : ((log.after group.lastDelivered).take count).getLast? with
  | none => exact h
  | some z =>
    have hz := List.mem_of_mem_take (List.mem_of_getLast? hlast)
    exact Or.inr ⟨z, (Log.mem_after.mp hz).1, rfl⟩

/-- What is left after a batch. -/
theorem after_readNew : log.after (group.readNew log count).1.lastDelivered =
    (log.after group.lastDelivered).drop count := by
  have hsplit := log.through_append_after group.lastDelivered
  have hafter := List.take_append_drop count (log.after group.lastDelivered)
  unfold readNew
  dsimp only
  cases hlast : ((log.after group.lastDelivered).take count).getLast? with
  | none =>
    rw [List.getLast?_eq_none_iff.mp hlast, List.nil_append] at hafter
    exact hafter.symm
  | some z =>
    obtain ⟨ys, hys⟩ := List.getLast?_eq_some_iff.mp hlast
    rw [← hafter, hys, List.append_assoc, List.singleton_append, ← List.append_assoc] at hsplit
    exact (Log.after_of_split hsplit.symm).1

/-- Claiming entries leaves the pending list as it is, apart from the counters. -/
theorem acked_reclaimAbandoned {id : StreamId} :
    (group.reclaimAbandoned log idle count).1.Acked id ↔ group.Acked id := by
  have hids : (group.reclaimAbandoned log idle count).1.pending.map PendingEntry.id =
      group.pending.map PendingEntry.id := claim_ids group _
  unfold Acked
  rw [hids]
  rfl

theorem acked_ack {id id' : StreamId} (h : (group.ack id').Acked id) : group.Acked id ∨ id = id' := by
  obtain ⟨hle, hout⟩ := h
  by_cases heq : id = id'
  · exact Or.inr heq
  · refine Or.inl ⟨hle, fun hmem => hout ?_⟩
    obtain ⟨p, hp, rfl⟩ := List.mem_map.mp hmem
    exact List.mem_map_of_mem (List.mem_filter.mpr ⟨hp, by simpa using heq⟩)

end Acked

end Group

end Perps
