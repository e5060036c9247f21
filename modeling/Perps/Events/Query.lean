import Perps.Events.Wire

/-! Live reads of the engine. A query never enters the input log: it travels on a stream
of its own, under the correlation id of its reply. -/

namespace Perps

open Lib

inductive EngineQuery where
  | getBalance (correlationId userId : String)
  | getPosition (correlationId userId : String)
  | getOrderbook (correlationId symbol : String) (levels : ℕ)
  deriving DecidableEq, Repr

def EngineQuery.correlationId : EngineQuery → String
  | .getBalance correlationId _ => correlationId
  | .getPosition correlationId _ => correlationId
  | .getOrderbook correlationId _ _ => correlationId

namespace Wire

open Schema

/-- What `number().int().positive().max(500)` checks. -/
def LevelsOK (n : ℚ) : Prop := n.den = 1 ∧ 0 < n ∧ n ≤ 500

instance : DecidablePred LevelsOK := fun n => inferInstanceAs (Decidable (n.den = 1 ∧ 0 < n ∧ n ≤ 500))

def levels : Schema ℕ := (number.refine LevelsOK).map fun n => n.num.toNat

def engineQuerySchema : Schema EngineQuery :=
  discriminatedUnion "type" [
    ("get_balance", fun get => do
      return .getBalance (← string.key "correlationId" get) (← string.key "userId" get)),
    ("get_position", fun get => do
      return .getPosition (← string.key "correlationId" get) (← string.key "userId" get)),
    ("get_orderbook", fun get => do
      return .getOrderbook (← string.key "correlationId" get) (← string.key "symbol" get)
        ((← levels.optionalKey "levels" get).getD 20))]

end Wire

/-- What the api asks for. -/
inductive QueryInput where
  | getBalance (userId : String)
  | getPosition (userId : String)
  | getOrderbook (symbol : String) (levels : Option ℚ)
  deriving DecidableEq, Repr

namespace QueryInput

/-- `{ ...q, correlationId }`. -/
def toObject (correlationId : String) : QueryInput → JsObject
  | .getBalance userId =>
    [("type", some (.str "get_balance")), ("userId", some (.str userId)),
      ("correlationId", some (.str correlationId))]
  | .getPosition userId =>
    [("type", some (.str "get_position")), ("userId", some (.str userId)),
      ("correlationId", some (.str correlationId))]
  | .getOrderbook symbol levels =>
    [("type", some (.str "get_orderbook")), ("symbol", some (.str symbol)),
      ("levels", levels.map .num), ("correlationId", some (.str correlationId))]

/-- How many levels a query is for. Numbers out of range are refused. -/
def depth : Option ℚ → Option ℕ
  | none => some 20
  | some n => if Wire.LevelsOK n then some n.num.toNat else none

/-- The query as the engine should read it. -/
def query (correlationId : String) : QueryInput → Option EngineQuery
  | .getBalance userId => some (.getBalance correlationId userId)
  | .getPosition userId => some (.getPosition correlationId userId)
  | .getOrderbook symbol levels => (depth levels).map fun n => .getOrderbook correlationId symbol n

theorem query_correlationId {correlationId : String} {q : QueryInput} {query : EngineQuery}
    (h : q.query correlationId = some query) : query.correlationId = correlationId := by
  cases q with
  | getBalance userId =>
    obtain rfl := Option.some.inj h
    rfl
  | getPosition userId =>
    obtain rfl := Option.some.inj h
    rfl
  | getOrderbook symbol levels =>
    obtain ⟨n, -, rfl⟩ := Option.map_eq_some_iff.mp h
    rfl

theorem toObject_nodup (correlationId : String) (q : QueryInput) :
    ((q.toObject correlationId).map Prod.fst).Nodup := by
  cases q <;> simp [toObject]

theorem parse_levels (n : ℚ) : Wire.levels.parse (.num n) = depth (some n) := by
  unfold Wire.levels Schema.map Schema.refine depth
  dsimp only
  rw [Schema.parse_number, Option.filter_some]
  by_cases hn : Wire.LevelsOK n
  · rw [if_pos (decide_eq_true hn), if_pos hn, Option.map_some]
  · rw [if_neg (by simpa using hn), if_neg hn, Option.map_none]

theorem optionalKey_levels {get : String → Option Json} {levels : Option ℚ}
    (h : get "levels" = levels.map .num) :
    (Wire.levels.optionalKey "levels" get).map (fun n => n.getD 20) = depth levels := by
  unfold Schema.optionalKey
  rw [h]
  cases levels with
  | none => rfl
  | some n =>
    rw [Option.map_some]
    dsimp only
    rw [parse_levels, Option.map_map]
    exact Option.map_id'

/-- The engine reads what was asked. -/
theorem parse_toObject (correlationId : String) (q : QueryInput) :
    Wire.engineQuerySchema.parse (q.toObject correlationId).stringify = q.query correlationId := by
  unfold Wire.engineQuerySchema Schema.discriminatedUnion JsObject.stringify
  rw [Schema.parse_object (q.toObject_nodup correlationId) (List.Perm.refl _)]
  cases q with
  | getBalance userId => rfl
  | getPosition userId => rfl
  | getOrderbook symbol levels =>
    have hlevels : (Wire.levels.optionalKey "levels"
        (toObject correlationId (.getOrderbook symbol levels)).get).map (fun n => n.getD 20) =
        depth levels := optionalKey_levels rfl
    have hquery : (QueryInput.getOrderbook symbol levels).query correlationId =
        (depth levels).map fun n => EngineQuery.getOrderbook correlationId symbol n := rfl
    rw [hquery, ← hlevels, Option.map_map]
    exact Option.map_eq_bind.symm

end QueryInput

end Perps
