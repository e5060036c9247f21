import Mathlib

/-! Stream ids `<ms>-<seq>` and their comparison. The literal `"0"` of the
source is `⟨0, 0⟩`, which no stream entry carries. -/

namespace Perps

structure StreamId where
  ms : ℕ
  seq : ℕ
  deriving DecidableEq, Repr

def StreamId.zero : StreamId := ⟨0, 0⟩

def compareStreamIds (a b : StreamId) : ℤ :=
  if a = b then 0
  else
    let ms : ℤ := (a.ms : ℤ) - (b.ms : ℤ)
    if ms ≠ 0 then (if ms < 0 then -1 else 1)
    else
      let ss : ℤ := (a.seq : ℤ) - (b.seq : ℤ)
      if ss = 0 then 0 else if ss < 0 then -1 else 1

/-- The order of the ids in a stream. -/
instance : LinearOrder StreamId :=
  LinearOrder.lift' (fun id => toLex (id.ms, id.seq)) fun a b h => by
    obtain ⟨_, _⟩ := a
    obtain ⟨_, _⟩ := b
    simpa using h

theorem StreamId.le_iff (a b : StreamId) : a ≤ b ↔ a.ms < b.ms ∨ a.ms = b.ms ∧ a.seq ≤ b.seq :=
  Prod.Lex.toLex_le_toLex

theorem StreamId.zero_le (a : StreamId) : zero ≤ a := by
  rw [le_iff]
  have : zero.ms = 0 := rfl
  have : zero.seq = 0 := rfl
  omega

/-- The comparison decides the order. -/
theorem compareStreamIds_le_zero (a b : StreamId) : compareStreamIds a b ≤ 0 ↔ a ≤ b := by
  rw [StreamId.le_iff]
  unfold compareStreamIds
  by_cases h : a = b
  · rw [if_pos h, h]
    simp
  · have hne : a.ms ≠ b.ms ∨ a.seq ≠ b.seq := by
      by_contra hall
      apply h
      obtain ⟨_, _⟩ := a
      obtain ⟨_, _⟩ := b
      simpa using not_or.mp hall
    rw [if_neg h]
    dsimp only
    split_ifs <;> omega

end Perps
