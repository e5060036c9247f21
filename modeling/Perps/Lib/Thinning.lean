import Mathlib

/-! `List.SublistForall₂ R xs ys` says that `xs` is `ys` with some elements
dropped and the others moved along `R`. What survives such a thinning. -/

namespace Lib

open List

variable {α β γ δ : Type*} {R : α → β → Prop} {xs : List α} {ys : List β}

theorem exists_of_mem_thinned (h : SublistForall₂ R xs ys) {x : α} (hx : x ∈ xs) :
    ∃ y ∈ ys, R x y := by
  induction h with
  | nil => cases hx
  | cons hr _ ih =>
    rcases mem_cons.mp hx with rfl | hx
    · exact ⟨_, mem_cons_self, hr⟩
    · obtain ⟨y, hy, h⟩ := ih hx
      exact ⟨y, mem_cons_of_mem _ hy, h⟩
  | cons_right _ ih =>
    obtain ⟨y, hy, h⟩ := ih hx
    exact ⟨y, mem_cons_of_mem _ hy, h⟩

theorem map_sublist_of_thinned {f : α → γ} {g : β → γ} (hfg : ∀ a b, R a b → f a = g b)
    (h : SublistForall₂ R xs ys) : xs.map f <+ ys.map g := by
  induction h with
  | nil => exact nil_sublist _
  | cons hr _ ih =>
    rw [map_cons, map_cons, hfg _ _ hr]
    exact ih.cons_cons _
  | cons_right _ ih =>
    rw [map_cons]
    exact ih.cons _

theorem thinned_append_left {S : γ → δ → Prop} {us : List γ} {vs : List δ} (ws : List δ)
    (h : SublistForall₂ S us vs) : SublistForall₂ S us (ws ++ vs) := by
  induction ws with
  | nil => exact h
  | cons w ws ih => exact ih.cons_right

theorem thinned_append {S : γ → δ → Prop} {us us' : List γ} {vs vs' : List δ}
    (h : SublistForall₂ S us vs) (h' : SublistForall₂ S us' vs') :
    SublistForall₂ S (us ++ us') (vs ++ vs') := by
  induction h with
  | nil => exact thinned_append_left _ h'
  | cons hr _ ih => exact .cons hr ih
  | cons_right _ ih => exact .cons_right ih

/-- Thinning a list of queues thins the queue of all their elements. -/
theorem thinned_flatMap {S : γ → δ → Prop} {f : α → List γ} {g : β → List δ}
    (hfg : ∀ a b, R a b → SublistForall₂ S (f a) (g b)) (h : SublistForall₂ R xs ys) :
    SublistForall₂ S (xs.flatMap f) (ys.flatMap g) := by
  induction h with
  | nil => exact .nil
  | cons hr _ ih => exact thinned_append (hfg _ _ hr) ih
  | cons_right _ ih => exact thinned_append_left _ ih

/-- Dropping elements is thinning. -/
theorem thinned_of_sublist {xs ys : List α} {R : α → α → Prop} (hr : ∀ x ∈ ys, R x x)
    (h : xs <+ ys) : SublistForall₂ R xs ys := by
  induction h with
  | slnil => exact .nil
  | cons a _ ih => exact .cons_right (ih fun x hx => hr x (mem_cons_of_mem _ hx))
  | cons_cons a _ ih =>
    exact .cons (hr a mem_cons_self) (ih fun x hx => hr x (mem_cons_of_mem _ hx))

end Lib
