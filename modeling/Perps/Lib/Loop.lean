import Mathlib

/-! `while` loops with an explicit bound on the number of rounds: the rule for
an invariant, and the rule that a measure below the bound makes the loop end
with its condition false, after which a larger bound changes nothing. -/

namespace Lib

variable {σ : Type*} (c : σ → Prop) [DecidablePred c] (b : σ → σ)

/-- At most `n` rounds of `while c do b`. -/
def loop : ℕ → σ → σ
  | 0, s => s
  | n + 1, s => if c s then loop n (b s) else s

@[simp] theorem loop_zero (s : σ) : loop c b 0 s = s := rfl

theorem loop_succ (n : ℕ) (s : σ) :
    loop c b (n + 1) s = if c s then loop c b n (b s) else s := rfl

theorem loop_of_not {s : σ} (h : ¬ c s) (n : ℕ) : loop c b n s = s := by
  cases n with
  | zero => rfl
  | succ n => rw [loop_succ, if_neg h]

theorem loop_of_cond {s : σ} (h : c s) (n : ℕ) : loop c b (n + 1) s = loop c b n (b s) := by
  rw [loop_succ, if_pos h]

variable {c b}

/-- What every round preserves, the loop preserves. -/
theorem loop_invariant {I : σ → Prop} (hstep : ∀ s, c s → I s → I (b s)) (n : ℕ) {s : σ}
    (hs : I s) : I (loop c b n s) := by
  induction n generalizing s with
  | zero => exact hs
  | succ n ih =>
    rw [loop_succ]
    split_ifs with hc
    · exact ih (hstep s hc hs)
    · exact hs

/-- Loops whose conditions and bodies agree up to `R` agree up to `R`. -/
theorem loop_sim {R : σ → σ → Prop} (hc : ∀ s t, R s t → (c s ↔ c t))
    (hb : ∀ s t, R s t → R (b s) (b t)) (n : ℕ) {s t : σ} (h : R s t) :
    R (loop c b n s) (loop c b n t) := by
  induction n generalizing s t with
  | zero => exact h
  | succ n ih =>
    rw [loop_succ, loop_succ]
    by_cases hs : c s
    · rw [if_pos hs, if_pos ((hc s t h).mp hs)]
      exact ih (hb s t h)
    · rw [if_neg hs, if_neg fun ht => hs ((hc s t h).mpr ht)]
      exact h

/-- A measure that every round lowers bounds the rounds. -/
theorem loop_exit {μ : σ → ℕ} (hμ : ∀ s, c s → μ (b s) < μ s) {n : ℕ} {s : σ} (hn : μ s ≤ n) :
    ¬ c (loop c b n s) := by
  induction n generalizing s with
  | zero =>
    intro hc
    have := hμ s hc
    omega
  | succ n ih =>
    rw [loop_succ]
    split_ifs with hc
    · have := hμ s hc
      exact ih (by omega)
    · exact hc

/-- Rounds beyond the measure do nothing. -/
theorem loop_enough {μ : σ → ℕ} (hμ : ∀ s, c s → μ (b s) < μ s) {m n : ℕ} {s : σ} (hn : μ s ≤ n)
    (hm : n ≤ m) : loop c b m s = loop c b n s := by
  induction n generalizing m s with
  | zero =>
    have hc : ¬ c s := fun hc => by
      have := hμ s hc
      omega
    rw [loop_of_not c b hc, loop_zero]
  | succ n ih =>
    obtain ⟨m, rfl⟩ : ∃ k, m = k + 1 := ⟨m - 1, by omega⟩
    rw [loop_succ, loop_succ]
    split_ifs with hc
    · have := hμ s hc
      exact ih (by omega) (by omega)
    · rfl

end Lib
