import Mathlib

/-! Keeping the largest. The number of elements above a given one does not fall
when something is removed that has enough elements above itself. -/

namespace Lib

variable {α β : Type*} [LinearOrder β] (key : α → β)

/-- How many elements have a larger key. -/
def above (a : α) (S : Finset α) : ℕ := (S.filter fun b => key a < key b).card

variable {key}

theorem above_mono {S T : Finset α} (h : S ⊆ T) (a : α) : above key a S ≤ above key a T :=
  Finset.card_le_card (Finset.filter_subset_filter _ h)

/-- If there are no more than `r` elements, all of them are above. -/
theorem all_above {S : Finset α} {r : ℕ} {a : α} (ha : r ≤ above key a S) (hS : S.card ≤ r) {b : α}
    (hb : b ∈ S) : key a < key b := by
  have hall : S.filter (fun b => key a < key b) = S :=
    Finset.eq_of_subset_of_card_le (Finset.filter_subset _ _) (hS.trans ha)
  rw [← hall] at hb
  exact (Finset.mem_filter.mp hb).2

variable [DecidableEq α]

theorem above_erase {S : Finset α} {r : ℕ} {a b : α} (ha : r ≤ above key a S)
    (hb : r ≤ above key b S) : r ≤ above key b (S.erase a) := by
  by_cases hlt : key b < key a
  · refine ha.trans (Finset.card_le_card fun x hx => ?_)
    obtain ⟨hx, hax⟩ := Finset.mem_filter.mp hx
    refine Finset.mem_filter.mpr ⟨Finset.mem_erase.mpr ⟨?_, hx⟩, hlt.trans hax⟩
    rintro rfl
    exact lt_irrefl _ hax
  · refine hb.trans (Finset.card_le_card fun x hx => ?_)
    obtain ⟨hx, hbx⟩ := Finset.mem_filter.mp hx
    refine Finset.mem_filter.mpr ⟨Finset.mem_erase.mpr ⟨?_, hx⟩, hbx⟩
    rintro rfl
    exact hlt hbx

/-- Beyond the first `r` of a descending list there are at least `r` above. -/
theorem above_of_mem_drop {l : List α} (hl : l.Pairwise fun a b => key b < key a) {r : ℕ} {a : α}
    (ha : a ∈ l.drop r) : r ≤ above key a l.toFinset := by
  have hlen : (l.take r).length = r := by
    have := List.length_pos_of_mem ha
    rw [List.length_drop] at this
    rw [List.length_take]
    omega
  have hnodup : (l.take r).Nodup :=
    (hl.imp fun h => ne_of_apply_ne key h.ne').sublist (List.take_sublist r l)
  have hbelow : ∀ x ∈ l.take r, key a < key x := by
    rw [← List.take_append_drop r l, List.pairwise_append] at hl
    exact fun x hx => hl.2.2 x hx a ha
  calc r = (l.take r).toFinset.card := by rw [List.toFinset_card_of_nodup hnodup, hlen]
    _ ≤ above key a l.toFinset := Finset.card_le_card fun x hx => by
      have hx := List.mem_toFinset.mp hx
      exact Finset.mem_filter.mpr
        ⟨List.mem_toFinset.mpr (List.mem_of_mem_take hx), hbelow x hx⟩

end Lib
