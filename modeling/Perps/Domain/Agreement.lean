import Perps.Domain.MapOrder

/-! States that agree on all that decides the outputs: they may differ in the order
of their maps, the last input id and the number of events applied. Events without
effect lead from one such state to another, and answer nothing. -/

namespace Perps

open Lib

namespace Engine

structure Agree (s t : EngineState) : Prop where
  rest : t = { s with
    balances := t.balances
    positions := t.positions
    lastInputId := t.lastInputId
    appliedCount := t.appliedCount }
  balances : ∀ u, t.balances.get? u = s.balances.get? u
  positions : ∀ u, t.positions.get? u = s.positions.get? u

namespace Agree

variable {s t u : EngineState}

theorem refl (s : EngineState) : Agree s s := ⟨rfl, fun _ => rfl, fun _ => rfl⟩

theorem symm (h : Agree s t) : Agree t s :=
  ⟨by rw [h.rest], fun v => (h.balances v).symm, fun v => (h.positions v).symm⟩

theorem trans (h : Agree s t) (h' : Agree t u) : Agree s u :=
  ⟨by rw [h'.rest, h.rest], fun v => (h'.balances v).trans (h.balances v),
    fun v => (h'.positions v).trans (h.positions v)⟩

theorem of_same (h : SameUpToOrder s t) : Agree s t := ⟨by rw [h.rest], h.balances, h.positions⟩

/-- States that are alike to the same state. -/
theorem of_alike {d d' : ℕ} {R R' : List String → List String → Prop} [OrdMap.KeyOrder R]
    [OrdMap.KeyOrder R'] {r : EngineState} (h : Alike d R r s) (h' : Alike d' R' r t) : Agree s t :=
  ⟨by rw [h'.rest, h.rest], fun v => (h'.balances v).trans (h.balances v).symm,
    fun v => (h'.positions v).trans (h.positions v).symm⟩

/-- The state before it has counted. -/
theorem alike_uncounted (h : Agree s t) :
    Alike t.appliedCount OrdMap.AnyOrder { s with appliedCount := 0 } t := by
  refine ⟨?_, h.balances, h.positions, trivial, fun hR => hR.elim⟩
  rw [Nat.zero_add]
  exact h.rest

theorem pos (h : Agree s t) (v : String) : t.pos v = s.pos v := h.alike_uncounted.pos v

theorem keysOK (h : Agree s t) (hkeys : KeysOK s) : KeysOK t := keysOK_of_pos hkeys h.pos

theorem process (h : Agree s t) (hkeys : KeysOK s) (e : EngineInputEvent) (id : StreamId) :
    Agree (Engine.process s e id).1 (Engine.process t e id).1 :=
  .of_alike (process_alike (refl s).alike_uncounted hkeys e id)
    (process_alike h.alike_uncounted hkeys e id)

theorem outputs (h : Agree s t) (hkeys : KeysOK s) {e : EngineInputEvent}
    (horder : liquidatedBy t e = liquidatedBy s e) (id : StreamId) :
    (Engine.process t e id).2 = (Engine.process s e id).2 :=
  (process_outputs h.alike_uncounted hkeys horder id).trans
    (process_outputs (refl s).alike_uncounted hkeys rfl id).symm

theorem alreadyApplied (h : Agree s t) (e : EngineInputEvent) :
    Engine.alreadyApplied t e = Engine.alreadyApplied s e :=
  alreadyApplied_alike h.alike_uncounted e

theorem run (h : Agree s t) (hkeys : KeysOK s) (evs : List (EngineInputEvent × StreamId)) :
    Agree (Engine.run s evs).1 (Engine.run t evs).1 := by
  induction evs generalizing s t with
  | nil => exact h
  | cons x xs ih => exact ih (h.process hkeys x.1 x.2) (keysOK_step hkeys x.1 x.2)

end Agree

def isPrice (e : EngineInputEvent) : Bool :=
  match e.payload with
  | .indexPriceUpdated _ => true
  | _ => false

/-- An index price that is not newer than the last one. -/
def stale (s : EngineState) (e : EngineInputEvent) : Bool :=
  match e.payload with
  | .indexPriceUpdated p => decide ((p.observerSeq : ℤ) ≤ s.lastObserverSeq)
  | _ => false

/-- A repeated command, or a stale price that is no command. -/
def Silent (s : EngineState) (e : EngineInputEvent) : Prop :=
  alreadyApplied s e = true ∨ e.commandId = none ∧ stale s e = true

/-- An event that is answered with no output: a repeated command, or a price that
liquidates nobody. -/
def Quiet (s : EngineState) (e : EngineInputEvent) : Prop :=
  alreadyApplied s e = true ∨ isPrice e = true ∧ liquidatedBy s e = []

instance (s : EngineState) (e : EngineInputEvent) : Decidable (Silent s e) :=
  inferInstanceAs (Decidable (_ ∨ _ ∧ _))

instance (s : EngineState) (e : EngineInputEvent) : Decidable (Quiet s e) :=
  inferInstanceAs (Decidable (_ ∨ _ ∧ _))

theorem isPrice_eq {e : EngineInputEvent} (h : isPrice e = true) :
    ∃ p, e.payload = .indexPriceUpdated p := by
  unfold isPrice at h
  split at h
  · next p hp => exact ⟨p, hp⟩
  · cases h

section Silent

variable {s t : EngineState} {e : EngineInputEvent}

theorem Agree.silent (h : Agree s t) : Silent t e ↔ Silent s e := by
  have hstale : stale t e = stale s e := by
    unfold stale
    rw [h.rest]
  unfold Silent
  rw [h.alreadyApplied, hstale]

theorem stale_eq (h : stale s e = true) : ∃ p, e.payload = .indexPriceUpdated p ∧
    (p.observerSeq : ℤ) ≤ s.lastObserverSeq := by
  unfold stale at h
  split at h
  · next p hp => exact ⟨p, hp, of_decide_eq_true h⟩
  · cases h

theorem Silent.quiet (h : Silent s e) : Quiet s e := by
  refine h.imp_right fun ⟨_, hstale⟩ => ?_
  obtain ⟨p, hp, hle⟩ := stale_eq hstale
  unfold isPrice liquidatedBy
  rw [hp]
  exact ⟨rfl, if_pos hle⟩

theorem Silent.process (h : Silent s e) (id : StreamId) :
    Agree s (process s e id).1 ∧ (Engine.process s e id).2 = [] := by
  rcases h with happlied | ⟨hnone, hstale⟩
  · rw [process_applied happlied]
    exact ⟨⟨rfl, fun _ => rfl, fun _ => rfl⟩, rfl⟩
  · obtain ⟨p, hp, hle⟩ := stale_eq hstale
    have hdispatch : dispatch s e = (s, []) := by
      unfold dispatch onIndexPrice
      rw [hp]
      exact if_pos hle
    have hnew : ¬ Engine.alreadyApplied s e = true := by
      unfold Engine.alreadyApplied
      rw [hnone]
      exact Bool.false_ne_true
    have hreduce := reduce_of_new hnew
    rw [hdispatch, hnone] at hreduce
    unfold Engine.process
    rw [hreduce]
    exact ⟨⟨rfl, fun _ => rfl, fun _ => rfl⟩, rfl⟩

theorem Quiet.outputs (h : Quiet s e) (id : StreamId) : (Engine.process s e id).2 = [] := by
  rcases h with happlied | ⟨hprice, hnobody⟩
  · rw [process_applied happlied]
  · obtain ⟨p, hp⟩ := isPrice_eq hprice
    by_cases ha : Engine.alreadyApplied s e = true
    · rw [process_applied ha]
    · have hdrafts : (dispatch s e).2 = [] := by
        unfold liquidatedBy at hnobody
        unfold dispatch onIndexPrice
        rw [hp] at hnobody ⊢
        dsimp only at hnobody ⊢
        split_ifs at hnobody ⊢
        · rfl
        · have hnone : doomed { s with lastObserverSeq := (p.observerSeq : ℤ) } p.price = [] :=
            List.map_eq_nil_iff.mp hnobody
          rw [liquidationSweep_snd, doomed_markToMarket, hnone]
          rfl
      unfold Engine.process
      rw [reduce_of_new ha, hdrafts]
      rfl

/-- Silent events lead to a state that agrees. -/
theorem run_silent {evs : List (EngineInputEvent × StreamId)} (h : ∀ x ∈ evs, Silent s x.1) :
    Agree s (run s evs).1 := by
  induction evs generalizing s with
  | nil => exact .refl s
  | cons x xs ih =>
    have hx := ((h x List.mem_cons_self).process x.2).1
    exact hx.trans (ih fun y hy => hx.silent.mpr (h y (List.mem_cons_of_mem _ hy)))

end Silent

end Engine

end Perps
