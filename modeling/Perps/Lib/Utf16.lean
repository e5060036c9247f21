import Mathlib

/-! The order of ECMAScript on strings: lexicographic on UTF-16 code units. A
character above the basic plane is a surrogate pair, and no character is a
surrogate, so the code units determine the string. -/

namespace Lib

/-- The UTF-16 code units of one character. -/
def charUnits (c : Char) : List ℕ :=
  if c.toNat < 0x10000 then [c.toNat]
  else [0xD800 + (c.toNat - 0x10000) / 0x400, 0xDC00 + (c.toNat - 0x10000) % 0x400]

def codeUnits (s : String) : List ℕ := s.toList.flatMap charUnits

/-- `a <= b` on strings. -/
def stringLe (a b : String) : Bool := decide (codeUnits a ≤ codeUnits b)

theorem char_toNat_valid (c : Char) : c.toNat < 0xD800 ∨ 0xDFFF < c.toNat ∧ c.toNat < 0x110000 :=
  c.valid

theorem char_eq_of_toNat_eq {c d : Char} (h : c.toNat = d.toNat) : c = d :=
  Char.ext (UInt32.toNat_inj.mp h)

/-- The code units of a string split after its first character in one way only. -/
theorem charUnits_append_inj {c d : Char} {xs ys : List ℕ}
    (h : charUnits c ++ xs = charUnits d ++ ys) : c = d ∧ xs = ys := by
  have hc := char_toNat_valid c
  have hd := char_toNat_valid d
  unfold charUnits at h
  split_ifs at h with h1 h2 h2
  · simp only [List.cons_append, List.nil_append, List.cons.injEq] at h
    exact ⟨char_eq_of_toNat_eq h.1, h.2⟩
  · simp only [List.cons_append, List.nil_append, List.cons.injEq] at h
    omega
  · simp only [List.cons_append, List.nil_append, List.cons.injEq] at h
    omega
  · simp only [List.cons_append, List.nil_append, List.cons.injEq] at h
    exact ⟨char_eq_of_toNat_eq (by omega), h.2.2⟩

theorem charUnits_ne_nil (c : Char) : charUnits c ≠ [] := by
  unfold charUnits
  split_ifs <;> simp

theorem flatMap_charUnits_inj {cs ds : List Char}
    (h : cs.flatMap charUnits = ds.flatMap charUnits) : cs = ds := by
  induction cs generalizing ds with
  | nil =>
    cases ds with
    | nil => rfl
    | cons d ds => simp [charUnits_ne_nil] at h
  | cons c cs ih =>
    cases ds with
    | nil => simp [charUnits_ne_nil] at h
    | cons d ds =>
      rw [List.flatMap_cons, List.flatMap_cons] at h
      obtain ⟨rfl, hrest⟩ := charUnits_append_inj h
      rw [ih hrest]

theorem codeUnits_injective {a b : String} (h : codeUnits a = codeUnits b) : a = b :=
  String.toList_injective (flatMap_charUnits_inj h)

theorem stringLe_trans (a b c : String) (hab : stringLe a b) (hbc : stringLe b c) :
    stringLe a c := by
  simp only [stringLe, decide_eq_true_eq] at *
  exact le_trans hab hbc

theorem stringLe_total (a b : String) : stringLe a b || stringLe b a := by
  simp only [stringLe, Bool.or_eq_true, decide_eq_true_eq]
  exact le_total _ _

theorem stringLe_antisymm (a b : String) (hab : stringLe a b) (hba : stringLe b a) : a = b := by
  simp only [stringLe, decide_eq_true_eq] at *
  exact codeUnits_injective (le_antisymm hab hba)

end Lib
