import Perps.Domain.MapOrder

/-! Interrupting a run, rebuilding the engine from its snapshot and going on ends
in the serialized state of the run that is not interrupted. -/

namespace Perps

open Lib

namespace Engine

variable {s t : EngineState}

/-- The serialized state forgets the order of the maps. -/
theorem serialize_same (h : SameUpToOrder s t) : serialize t = serialize s := by
  have hb : t.balances.sorted stringLe = s.balances.sorted stringLe :=
    (OrdMap.sorted_eq_iff stringLe_trans stringLe_total stringLe_antisymm).mpr h.balances
  have hp : t.positions.sorted stringLe = s.positions.sorted stringLe :=
    (OrdMap.sorted_eq_iff stringLe_trans stringLe_total stringLe_antisymm).mpr h.positions
  unfold serialize
  rw [hb, hp, h.rest]

/-- A run does not see the order of the maps. -/
theorem run_same (h : SameUpToOrder s t) (hkeys : KeysOK s)
    {evs : List (EngineInputEvent × StreamId)} (hevs : RunOf engineInputEventSchema evs) :
    SameUpToOrder (run s evs).1 (run t evs).1 := by
  induction evs generalizing s t with
  | nil => exact h
  | cons x xs ih =>
    exact ih (process_same h hkeys x.1 x.2) (keysOK_step hkeys x.1 x.2)
      fun y hy => hevs y (List.mem_cons_of_mem _ hy)

/-- Process the segments one after the other, passing through a snapshot in JSON
after each of them, and then the rest. -/
def runInterrupted (s : EngineState) (segments : List (List (EngineInputEvent × StreamId)))
    (rest : List (EngineInputEvent × StreamId)) : Option EngineState :=
  match segments with
  | [] => some (run s rest).1
  | segment :: segments => do runInterrupted (← restore (run s segment).1) segments rest

/-- An interrupted run ends where the run ends, up to the order of the maps. -/
theorem runInterrupted_same (hkeys : KeysOK s) (segments : List (List (EngineInputEvent × StreamId)))
    {rest : List (EngineInputEvent × StreamId)}
    (hevs : RunOf engineInputEventSchema (segments.flatten ++ rest)) :
    ∃ t, runInterrupted s segments rest = some t ∧
      SameUpToOrder (run s (segments.flatten ++ rest)).1 t := by
  induction segments generalizing s with
  | nil => exact ⟨_, rfl, .refl _⟩
  | cons segment segments ih =>
    rw [List.flatten_cons, List.append_assoc] at hevs ⊢
    have htail : RunOf engineInputEventSchema (segments.flatten ++ rest) := fun x hx =>
      hevs x (List.mem_append_right _ hx)
    obtain ⟨r, hr, hsame⟩ := restore_same (run s segment).1
    have hkeys' := keysOK_steps hkeys segment
    obtain ⟨t, ht, hrun⟩ := ih (keysOK_of_pos hkeys' hsame.pos) htail
    refine ⟨t, ?_, ?_⟩
    · unfold runInterrupted
      rw [hr]
      exact ht
    · rw [run_append]
      exact (run_same hsame hkeys' htail).trans hrun

/-- Wherever a run is split, rebuilding the engine from its snapshot at the
splits changes nothing in the serialized state at its end. -/
theorem snapshot_replay (market : MarketConfig)
    (segments : List (List (EngineInputEvent × StreamId)))
    {rest : List (EngineInputEvent × StreamId)}
    (hevs : RunOf engineInputEventSchema (segments.flatten ++ rest)) :
    ∃ t, runInterrupted (createState market) segments rest = some t ∧
      serialize t = serialize (run (createState market) (segments.flatten ++ rest)).1 ∧
      stableStringify t =
        stableStringify (run (createState market) (segments.flatten ++ rest)).1 := by
  obtain ⟨t, ht, hsame⟩ := runInterrupted_same (keysOK_createState market) segments hevs
  have hser := serialize_same hsame
  exact ⟨t, ht, hser, congrArg Codec.state.enc hser⟩

open Fixture in
/-- Two splits before a price that liquidates two users. -/
theorem snapshot_replay_liquidations :
    let segments := [numbered [user "z" 1000000, user "m" 1000000, user "a" 1000000],
      numbered [place "z" "b1" .Bid .LIMIT 1000 1 10 100, place "a" "b2" .Bid .LIMIT 1000 1 10 100]]
    let rest := numbered [place "m" "a1" .Ask .LIMIT 1000 2 10 200,
      evt none (.indexPriceUpdated ⟨"BTCUSDT", 500, 1, 0⟩)]
    ∃ t, runInterrupted (createState MARKET) segments rest = some t ∧
      serialize t = serialize (run (createState MARKET) (segments.flatten ++ rest)).1 ∧
      stableStringify t = stableStringify (run (createState MARKET) (segments.flatten ++ rest)).1 :=
  snapshot_replay MARKET _ (by decide +kernel)

end Engine

end Perps
