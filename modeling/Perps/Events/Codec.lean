import Perps.Events.Output

/-! Stream entries and their decoding. An entry carries an event as JSON, or
`none` if its `data` is missing or is not the JSON of an event's shape. -/

namespace Perps

/-- `decodeWith`: a newer schema version and an invalid event are refused. -/
def decodeWith {α : Type} (schema : α → Prop) [DecidablePred schema] (schemaVersion : α → ℕ)
    (data : Option α) : Option α :=
  match data with
  | none => none
  | some e => if schemaVersion e > SCHEMA_VERSION then none else if schema e then some e else none

def decodeInputEvent (data : Option EngineInputEvent) : Option EngineInputEvent :=
  decodeWith engineInputEventSchema (fun e => e.schemaVersion) data

def decodeOutputEvent (data : Option EngineOutputEvent) : Option EngineOutputEvent :=
  decodeWith engineOutputEventSchema (fun e => e.schemaVersion) data

theorem decodeWith_eq_some {α : Type} {schema : α → Prop} [DecidablePred schema]
    {schemaVersion : α → ℕ} {data : Option α} {e : α} :
    decodeWith schema schemaVersion data = some e ↔
      data = some e ∧ schemaVersion e ≤ SCHEMA_VERSION ∧ schema e := by
  unfold decodeWith
  cases data with
  | none => simp
  | some d =>
    dsimp only
    split_ifs with hv hs
    · refine iff_of_false (by simp) ?_
      rintro ⟨h, hle, -⟩
      obtain rfl := Option.some.inj h
      omega
    · refine ⟨fun h => ?_, fun h => h.1⟩
      obtain rfl := Option.some.inj h
      exact ⟨rfl, by omega, hs⟩
    · refine iff_of_false (by simp) ?_
      rintro ⟨h, -, hs'⟩
      obtain rfl := Option.some.inj h
      exact hs hs'

end Perps
