import Mathlib

/-! Runs of a transition system whose steps may be disabled, along which every
step meets a condition on the state before it, and the rule for an invariant. -/

namespace Lib

variable {σ α : Type*} (step : σ → α → Option σ) (C : σ → α → Prop)

/-- The state after the actions, if each is enabled when it is taken. -/
def runs (s : σ) : List α → Option σ
  | [] => some s
  | a :: as => step s a >>= fun t => runs t as

/-- Every step of the run meets the condition. -/
def Along (s : σ) : List α → Prop
  | [] => True
  | a :: as => C s a ∧ ∀ t ∈ step s a, Along t as

instance decidableAlong [∀ s a, Decidable (C s a)] (s : σ) (as : List α) :
    Decidable (Along step C s as) :=
  match as with
  | [] => inferInstanceAs (Decidable True)
  | a :: as =>
    haveI : ∀ t, Decidable (Along step C t as) := fun t => decidableAlong t as
    inferInstanceAs (Decidable (C s a ∧ ∀ t ∈ step s a, Along step C t as))

variable {step C}

/-- A run in two parts meets the condition in both. -/
theorem Along.of_append {s : σ} {as bs : List α} (h : Along step C s (as ++ bs)) :
    Along step C s as ∧ ∀ t, runs step s as = some t → Along step C t bs := by
  induction as generalizing s with
  | nil =>
    refine ⟨trivial, fun t ht => ?_⟩
    obtain rfl := Option.some.inj ht
    exact h
  | cons a as ih =>
    refine ⟨⟨h.1, fun t ht => (ih (h.2 t ht)).1⟩, fun u hu => ?_⟩
    obtain ⟨t, ht, hrest⟩ := Option.bind_eq_some_iff.mp hu
    exact (ih (h.2 t ht)).2 u hrest

theorem Along.of_forall (step : σ → α → Option σ) (h : ∀ s a, C s a) (s : σ) (as : List α) :
    Along step C s as := by
  induction as generalizing s with
  | nil => trivial
  | cons a as ih => exact ⟨h s a, fun t _ => ih t⟩

theorem Along.mono {C' : σ → α → Prop} {as : List α} (hC : ∀ s, ∀ a ∈ as, C s a → C' s a) {s : σ}
    (h : Along step C s as) : Along step C' s as := by
  induction as generalizing s with
  | nil => trivial
  | cons a as ih =>
    exact ⟨hC s a List.mem_cons_self h.1, fun t ht =>
      ih (fun s b hb => hC s b (List.mem_cons_of_mem _ hb)) (h.2 t ht)⟩

theorem Along.mem (step : σ → α → Option σ) (s : σ) (as : List α) :
    Along step (fun _ a => a ∈ as) s as :=
  (Along.of_forall (C := fun _ _ => True) step (fun _ _ => trivial) s as).mono fun _ _ ha _ => ha

/-- What every step preserves where it meets the condition, the run preserves. -/
theorem runs_invariant {I : σ → Prop}
    (hstep : ∀ s a t, C s a → step s a = some t → I s → I t) {s : σ} (hs : I s) {as : List α}
    (hC : Along step C s as) {t : σ} (hrun : runs step s as = some t) : I t := by
  induction as generalizing s with
  | nil =>
    obtain rfl := Option.some.inj hrun
    exact hs
  | cons a as ih =>
    obtain ⟨u, hu, hrest⟩ := Option.bind_eq_some_iff.mp hrun
    exact ih (hstep s a u hC.1 hu hs) (hC.2 u hu) hrest

theorem runs_append (s : σ) (as bs : List α) :
    runs step s (as ++ bs) = runs step s as >>= fun t => runs step t bs := by
  induction as generalizing s with
  | nil => rfl
  | cons a as ih =>
    rw [List.cons_append]
    show (step s a >>= fun t => runs step t (as ++ bs)) = _
    simp only [ih]
    exact (Option.bind_assoc ..).symm

theorem runs_concat (s : σ) (as : List α) (a : α) :
    runs step s (as ++ [a]) = runs step s as >>= fun t => step t a := by
  rw [runs_append]
  exact congrArg (runs step s as).bind (funext fun t => Option.bind_fun_some (step t a))

/-- An invariant that may speak of the actions taken so far. -/
theorem runs_history {I : List α → σ → Prop} {s : σ} (hs : I [] s)
    (hstep : ∀ as a t u, runs step s as = some t → step t a = some u → I as t → I (as ++ [a]) u)
    {as : List α} {t : σ} (hrun : runs step s as = some t) : I as t := by
  induction as using List.reverseRecOn generalizing t with
  | nil =>
    obtain rfl := Option.some.inj hrun
    exact hs
  | append_singleton as a ih =>
    rw [runs_concat] at hrun
    obtain ⟨u, hu, hlast⟩ := Option.bind_eq_some_iff.mp hrun
    exact hstep as a u t hu hlast (ih hu)

end Lib
