import Perps.Runtime.StreamConsumer

/-! Delivery at least once. An entry leaves the pending list only by an
acknowledgement, and no consumer acknowledges an entry before a handler has resolved
on it or the dead-letter stream has its copy. -/

namespace Perps

open Lib
open EngineRuntime (Reply)

namespace StreamConsumer

variable {ι α : Type}

def Copied (s : System ι α) (x : Entry α) : Prop :=
  ∃ d ∈ s.deadLetters, d.dlqId = x.id ∧ d.fields = x.data

/-- Where an entry is: not delivered yet, pending or acknowledged, and then for a reason. -/
structure AtLeastOnce (s : System ι α) : Prop where
  kept : ∀ x ∈ s.log.entries, s.group.lastDelivered < x.id ∨
    x.id ∈ s.group.pending.map PendingEntry.id ∨ x.id ∈ s.acked
  pending : ∀ p ∈ s.group.pending, p.id ≤ s.group.lastDelivered
  acked : ∀ id ∈ s.acked, id ≤ s.group.lastDelivered ∧ id ∉ s.group.pending.map PendingEntry.id
  reason : ∀ x ∈ s.log.entries, x.id ∈ s.acked → x.id ∈ s.resolved ∨ Copied s x

/-- There is a reason for what the consumer is about to acknowledge. -/
def Work.Justified (s : System ι α) : Work α → Prop
  | .acking msg => msg.id ∈ s.resolved
  | .deadAcking msg => Copied s msg.toEntry
  | _ => True

structure Kept (s : System ι α) : Prop where
  marks : s.log.Marks s.group.lastDelivered
  kept : ∀ x ∈ s.log.entries, s.group.Acked x.id → x.id ∈ s.acked
  acked : ∀ id ∈ s.acked, s.group.Acked id
  reason : ∀ id ∈ s.acked, id ∈ s.resolved ∨ ∃ x ∈ s.log.entries, x.id = id ∧ Copied s x
  working : Each s fun _ m => m.work.Justified s

section Kept

variable {s : System ι α}

theorem Kept.start (log : Log α) : Kept (System.start log .create : System ι α) := by
  refine ⟨Or.inl rfl, fun x hx hacked => ?_, fun _ hid => absurd hid List.not_mem_nil,
    fun _ hid => absurd hid List.not_mem_nil, fun _ _ hm => nomatch hm⟩
  exact absurd (log.positive x hx) (not_lt.mpr hacked.1)

theorem Kept.claim (h : Kept s) (ids : List StreamId) : Kept (s.claim ids) := by
  have hacked (id : StreamId) : (s.claim ids).group.Acked id ↔ s.group.Acked id := by
    unfold Group.Acked
    rw [show (s.claim ids).group = s.group.claim ids from rfl, Group.claim_ids]
    rfl
  exact ⟨h.marks, fun x hx hx' => h.kept x hx ((hacked x.id).mp hx'),
    fun id hid => (hacked id).mpr (h.acked id hid), h.reason, h.working⟩

theorem Kept.readNew (h : Kept s) (count : ℕ) : Kept (s.readNew count) := by
  refine ⟨Group.marks_readNew h.marks, fun x hx hacked => h.kept x hx (Group.acked_readNew hx hacked),
    fun id hid => ?_, h.reason, h.working⟩
  obtain ⟨hle, hout⟩ := h.acked id hid
  refine ⟨hle.trans Group.readNew_lastDelivered_le, fun hmem => ?_⟩
  obtain ⟨p, hp, rfl⟩ := List.mem_map.mp hmem
  rcases List.mem_append.mp hp with hp | hp
  · exact hout (List.mem_map_of_mem hp)
  · obtain ⟨x, hx, rfl⟩ := List.mem_map.mp hp
    exact not_le.mpr (Log.mem_after.mp (List.mem_of_mem_take hx)).2 hle

theorem Kept.ack (h : Kept s) {x : Entry α} (hx : Delivered s x)
    (hreason : x.id ∈ s.resolved ∨ Copied s x) : Kept (s.ack x.id) := by
  refine ⟨h.marks, fun y hy hacked => ?_, fun id hid => ?_, fun id hid => ?_, h.working⟩
  · rcases Group.acked_ack hacked with hacked | heq
    · exact List.mem_append_left _ (h.kept y hy hacked)
    · exact List.mem_append_right _ (List.mem_singleton.mpr heq)
  · have hout : id ∉ s.group.pending.map PendingEntry.id ∨ id = x.id := by
      rcases List.mem_append.mp hid with hid | hid
      · exact Or.inl (h.acked id hid).2
      · exact Or.inr (List.mem_singleton.mp hid)
    refine ⟨?_, fun hmem => ?_⟩
    · rcases List.mem_append.mp hid with hid | hid
      · exact (h.acked id hid).1
      · exact List.mem_singleton.mp hid ▸ hx.2
    · obtain ⟨p, hp, rfl⟩ := List.mem_map.mp hmem
      obtain ⟨hp, hne⟩ := List.mem_filter.mp hp
      rcases hout with hout | heq
      · exact hout (List.mem_map_of_mem hp)
      · exact of_decide_eq_true hne heq
  · rcases List.mem_append.mp hid with hid | hid
    · exact h.reason id hid
    · obtain rfl := List.mem_singleton.mp hid
      exact hreason.imp_right fun hcopied => ⟨x, hx.1, rfl, hcopied⟩

/-- The record of outcomes and copies only grows. -/
theorem Kept.grow {s' : System ι α} (h : Kept s) (hlog : s'.log = s.log) (hgroup : s'.group = s.group)
    (hacked : s'.acked = s.acked) (hconsumers : s'.consumers = s.consumers)
    (hresolved : s.resolved ⊆ s'.resolved) (hcopies : s.deadLetters ⊆ s'.deadLetters) : Kept s' := by
  have hcopied {x : Entry α} : Copied s x → Copied s' x := by
    rintro ⟨d, hd, heq⟩
    exact ⟨d, hcopies hd, heq⟩
  refine ⟨?_, ?_, ?_, ?_, ?_⟩
  · rw [hlog, hgroup]
    exact h.marks
  · rw [hlog, hgroup, hacked]
    exact h.kept
  · rw [hgroup, hacked]
    exact h.acked
  · rw [hlog, hacked]
    intro id hid
    refine (h.reason id hid).imp (fun hres => hresolved hres) ?_
    rintro ⟨x, hx, heq, hx'⟩
    exact ⟨x, hx, heq, hcopied hx'⟩
  · unfold Each
    rw [hconsumers]
    intro c m hm
    have hwork : m.work.Justified s := h.working c m hm
    cases hw : m.work with
    | acking msg =>
      rw [hw] at hwork
      exact hresolved hwork
    | deadAcking msg =>
      rw [hw] at hwork
      exact hcopied hwork
    | idle => trivial
    | counting valid => trivial
    | handling msg => trivial
    | deadLettering msg => trivial

theorem atLeastOnce_of (hs : Sound s) (hk : Kept s) : AtLeastOnce s := by
  refine ⟨fun x hx => ?_, hs.wellFormed.delivered, hk.acked, fun x hx hid => ?_⟩
  · rcases lt_or_ge s.group.lastDelivered x.id with hlt | hle
    · exact Or.inl hlt
    · by_cases hpending : x.id ∈ s.group.pending.map PendingEntry.id
      · exact Or.inr (Or.inl hpending)
      · exact Or.inr (Or.inr (hk.kept x hx ⟨hle, hpending⟩))
  · refine (hk.reason x.id hid).imp_right ?_
    rintro ⟨y, hy, heq, hcopied⟩
    rwa [← Log.eq_of_id hy hx heq]

variable [DecidableEq ι] {c : ι}

theorem Kept.set (h : Kept s) {m : Memory α} (hm : m.work.Justified s) : Kept (s.set c m) :=
  ⟨h.marks, h.kept, h.acked, h.reason, h.working.set hm⟩

theorem Kept.restart (h : Kept s) : Kept (s.set c .restart) :=
  h.set trivial

theorem kept_step {opts : ι → ConsumerOptions} {s' : System ι α} {a : Action ι α}
    (h : step opts s a = some s') (hs : Sound s) (hk : Kept s) : Kept s' := by
  cases step_cases h with
  | @add entry log hlog =>
    refine ⟨hk.marks.add hlog, fun x hx hacked => ?_, hk.acked, fun id hid => ?_, hk.working⟩
    · rcases (Log.mem_of_add hlog).mp hx with hx | rfl
      · exact hk.kept x hx hacked
      · exact absurd (hk.marks.lt_of_add hlog) (not_lt.mpr hacked.1)
    · refine (hk.reason id hid).imp_right ?_
      rintro ⟨x, hx, hrest⟩
      exact ⟨x, (Log.mem_of_add hlog).mpr (Or.inl hx), hrest⟩
  | start hdown => exact hk.restart
  | crash => exact ⟨hk.marks, hk.kept, hk.acked, hk.reason, hk.working.crash⟩
  | @reclaim idle reply c hm =>
    have hexec := execute_of reply hk (hk.claim (s.group.claimable idle (opts c).count))
    split_ifs
    · refine hexec.set ?_
      unfold reclaimed
      dsimp only
      split_ifs <;> trivial
    · exact hexec.restart
  | count reply hm =>
    split_ifs
    · exact hk.set trivial
    · exact hk.restart
  | @readNew reply c hm =>
    have hexec := execute_of reply hk (hk.readNew (opts c).count)
    split_ifs
    · exact hexec.set trivial
    · exact hexec.restart
  | @dispatch c msg batch claimed hm =>
    unfold dispatch
    split_ifs
    · exact hk.set trivial
    · have hset := hk.set (c := c) (m := ⟨.handling msg, batch, claimed⟩) trivial
      exact ⟨hset.marks, hset.kept, hset.acked, hset.reason, hset.working⟩
  | @resolve c msg batch claimed hm =>
    have hgrown : Kept { s with resolved := s.resolved ++ [msg.id] } :=
      hk.grow rfl rfl rfl rfl (List.subset_append_left _ _) (List.Subset.refl _)
    exact hgrown.set (List.mem_append_right _ (List.mem_singleton_self _))
  | throw hm => exact hk.set trivial
  | @deadLetter reply c msg batch claimed hm =>
    have hgrown : Kept (s.deadLetter (opts c) msg) :=
      hk.grow rfl rfl rfl rfl (List.Subset.refl _) (List.subset_append_left _ _)
    have hexec := execute_of reply hk hgrown
    split_ifs with hreply
    · subst hreply
      exact hexec.set ⟨_, List.mem_append_right _ (List.mem_singleton_self _), rfl, rfl⟩
    · exact hexec.restart
  | @ack reply c msg batch claimed hm =>
    have hmsg : Delivered s msg.toEntry := hs.held c _ hm _ List.mem_cons_self
    exact (execute_of reply hk (hk.ack hmsg (Or.inl (hk.working c _ hm)))).set trivial
  | @deadAck reply c msg batch claimed hm =>
    have hmsg : Delivered s msg.toEntry := hs.held c _ hm _ List.mem_cons_self
    have hexec := execute_of reply hk (hk.ack hmsg (Or.inr (hk.working c _ hm)))
    split_ifs
    · exact hexec.set trivial
    · exact hexec.restart

end Kept

/-- However the consumers fail, no entry is dropped. -/
theorem runs_atLeastOnce [DecidableEq ι] (opts : ι → ConsumerOptions) (log : Log α)
    (as : List (Action ι α)) (s : System ι α)
    (hrun : runs (step opts) (.start log .create) as = some s) : AtLeastOnce s := by
  have hinv : Sound s ∧ Kept s :=
    runs_invariant (I := fun s => Sound s ∧ Kept s) (C := fun _ _ => True)
      (fun _ _ _ _ hstep h => ⟨sound_step hstep h.1, kept_step hstep h.1 h.2⟩)
      ⟨Sound.start .create, Kept.start log⟩ (.of_forall _ (fun _ _ => trivial) _ _) hrun
  exact atLeastOnce_of hinv.1 hinv.2

namespace Fixture

/-- The first consumer handles an entry and cannot acknowledge it, and crashes over the
next one. The second claims both, but the reply to its copy is lost. -/
def interrupted : List (Action Bool String) :=
  [.add ⟨⟨1, 0⟩, "a"⟩, .add ⟨⟨2, 0⟩, "b"⟩,
    .of false .start, .of false (.reclaim [] .ok), .of false (.readNew .ok), .of false .dispatch,
    .of false .resolve, .of false (.ack .failed), .of false .dispatch, .of false .crash,
    .of true .start, .of true (.reclaim [⟨1, 0⟩, ⟨2, 0⟩] .ok), .of true (.count .ok),
    .of true .dispatch, .of true (.deadLetter .ok), .of true (.ack .lost),
    .of true (.reclaim [⟨2, 0⟩] .ok), .of true (.count .ok), .of true .dispatch,
    .of true (.deadLetter .lost)]

end Fixture

open StreamConsumer.Fixture in
theorem runs_atLeastOnce_interrupted :
    ∃ s, runs (step fun _ => ⟨"input", "engine", 10, 1⟩) (.start .empty .create) interrupted =
      some s ∧ s.acked = [⟨1, 0⟩] ∧ AtLeastOnce s := by
  have hacked : (runs (step fun _ => ⟨"input", "engine", 10, 1⟩) (.start .empty .create)
      interrupted).map (fun s => s.acked) = some [⟨1, 0⟩] := by
    decide +kernel
  obtain ⟨s, hs, hacked⟩ := Option.map_eq_some_iff.mp hacked
  exact ⟨s, hs, hacked, runs_atLeastOnce _ _ interrupted s hs⟩

end StreamConsumer

end Perps
