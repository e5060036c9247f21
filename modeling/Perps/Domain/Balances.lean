import Perps.Domain.State

/-! Balances. `bal` reads a user's balance as the record `ensureBalance` would
return, and every operation is a `set` of that record. -/

namespace Perps

open Lib

def Balance.zero : Balance := ⟨0, 0, 0⟩

/-- The record of `userId`, created when there is none. -/
def ensureBalance (state : EngineState) (userId : String) : EngineState × Balance :=
  match state.balances.get? userId with
  | some b => (state, b)
  | none => ({ state with balances := state.balances.set userId .zero }, .zero)

def credit (state : EngineState) (userId : String) (amount : ℚ) : EngineState :=
  let (state, b) := ensureBalance state userId
  { state with
    balances := state.balances.set userId
      { b with total := q (b.total + amount), free := q (b.free + amount) } }

/-- Move `amount` from free to locked; false if the free balance is too small. -/
def lock (state : EngineState) (userId : String) (amount : ℚ) : EngineState × Bool :=
  let (state, b) := ensureBalance state userId
  if b.free + 1e-6 < amount then (state, false)
  else
    ({ state with
        balances := state.balances.set userId
          { b with free := q (b.free - amount), locked := q (b.locked + amount) } }, true)

/-- Move up to `amount` back from locked to free, and say how much was moved. -/
def release (state : EngineState) (userId : String) (amount : ℚ) : EngineState × ℚ :=
  let (state, b) := ensureBalance state userId
  let moved := min b.locked (max 0 amount)
  ({ state with
      balances := state.balances.set userId
        { b with locked := q (b.locked - moved), free := q (b.free + moved) } }, moved)

/-- Book realised profit or loss on total and free. -/
def applyPnl (state : EngineState) (userId : String) (pnl : ℚ) : EngineState :=
  let (state, b) := ensureBalance state userId
  { state with
    balances := state.balances.set userId
      { b with total := q (b.total + pnl), free := q (b.free + pnl) } }

/-! The same operations on one record. -/

def EngineState.bal (state : EngineState) (userId : String) : Balance :=
  (state.balances.get? userId).getD .zero

def Balance.add (b : Balance) (amount : ℚ) : Balance :=
  { b with total := q (b.total + amount), free := q (b.free + amount) }

def Balance.lock (b : Balance) (amount : ℚ) : Balance :=
  { b with free := q (b.free - amount), locked := q (b.locked + amount) }

def Balance.moved (b : Balance) (amount : ℚ) : ℚ := min b.locked (max 0 amount)

def Balance.release (b : Balance) (amount : ℚ) : Balance :=
  { b with locked := q (b.locked - b.moved amount), free := q (b.free + b.moved amount) }

theorem ensureBalance_snd (state : EngineState) (userId : String) :
    (ensureBalance state userId).2 = state.bal userId := by
  unfold ensureBalance EngineState.bal
  cases state.balances.get? userId <;> rfl

/-- Setting the record after `ensureBalance` is setting it in the first place. -/
theorem ensureBalance_set (state : EngineState) (userId : String) (b : Balance) :
    { (ensureBalance state userId).1 with
      balances := (ensureBalance state userId).1.balances.set userId b } =
        { state with balances := state.balances.set userId b } := by
  unfold ensureBalance
  cases state.balances.get? userId <;> simp

theorem credit_eq (state : EngineState) (userId : String) (amount : ℚ) :
    credit state userId amount =
      { state with balances := state.balances.set userId ((state.bal userId).add amount) } := by
  rw [← ensureBalance_snd, ← ensureBalance_set]
  rfl

theorem applyPnl_eq (state : EngineState) (userId : String) (pnl : ℚ) :
    applyPnl state userId pnl =
      { state with balances := state.balances.set userId ((state.bal userId).add pnl) } := by
  rw [← ensureBalance_snd, ← ensureBalance_set]
  rfl

theorem release_eq (state : EngineState) (userId : String) (amount : ℚ) :
    release state userId amount =
      ({ state with
          balances := state.balances.set userId ((state.bal userId).release amount) },
        (state.bal userId).moved amount) := by
  rw [← ensureBalance_snd, ← ensureBalance_set]
  rfl

theorem lock_snd (state : EngineState) (userId : String) (amount : ℚ) :
    (lock state userId amount).2 = !decide ((state.bal userId).free + 1e-6 < amount) := by
  rw [← ensureBalance_snd]
  simp only [lock]
  split_ifs with h <;> simp [h]

theorem lock_fst (state : EngineState) (userId : String) (amount : ℚ)
    (h : (lock state userId amount).2 = true) :
    (lock state userId amount).1 =
      { state with balances := state.balances.set userId ((state.bal userId).lock amount) } := by
  rw [lock_snd] at h
  rw [← ensureBalance_set]
  simp only [lock, ensureBalance_snd]
  rw [if_neg (by simpa using h)]
  rfl

theorem bal_set (state : EngineState) (userId v : String) (b : Balance) :
    ({ state with balances := state.balances.set userId b } : EngineState).bal v =
      if v = userId then b else state.bal v := by
  simp only [EngineState.bal, OrdMap.get?_set]
  split_ifs <;> rfl

end Perps
