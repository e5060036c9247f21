import Perps.Lib.Utf16

/-! Numerals padded with zeros: as strings they come in the order of the numbers. -/

namespace Lib

/-- `String.prototype.padStart`. -/
def padStart (s : String) (n : ℕ) (c : Char) : String :=
  String.ofList (List.replicate (n - s.length) c ++ s.toList)

/-- What the digits after the first `i` can make of it. -/
theorem ofDigitChars_bounds {ds : List Char} (hds : ∀ c ∈ ds, c.isDigit) (i : ℕ) :
    10 ^ ds.length * i ≤ Nat.ofDigitChars 10 ds i ∧
      Nat.ofDigitChars 10 ds i < 10 ^ ds.length * (i + 1) := by
  induction ds generalizing i with
  | nil => simp
  | cons c cs ih =>
    have hc : c.toNat - 48 < 10 := by
      have h := hds c List.mem_cons_self
      simp only [Char.isDigit, ge_iff_le, Bool.and_eq_true, decide_eq_true_eq] at h
      have h2 : c.toNat ≤ 57 := h.2
      omega
    rw [Nat.ofDigitChars_cons, List.length_cons, pow_succ]
    obtain ⟨hlo, hhi⟩ :=
      ih (fun d hd => hds d (List.mem_cons_of_mem _ hd)) (10 * i + (c.toNat - 48))
    constructor
    · calc 10 ^ cs.length * 10 * i ≤ 10 ^ cs.length * (10 * i + (c.toNat - 48)) := by
            rw [mul_assoc]
            exact Nat.mul_le_mul_left _ (by omega)
        _ ≤ _ := hlo
    · calc _ < 10 ^ cs.length * (10 * i + (c.toNat - 48) + 1) := hhi
        _ ≤ 10 ^ cs.length * 10 * (i + 1) := by
            rw [mul_assoc]
            exact Nat.mul_le_mul_left _ (by omega)

theorem charUnits_digit {c : Char} (hc : c.isDigit) : charUnits c = [c.toNat] := by
  simp only [Char.isDigit, ge_iff_le, Bool.and_eq_true, decide_eq_true_eq] at hc
  have h : c.toNat ≤ 57 := hc.2
  rw [charUnits, if_pos (by omega)]

/-- Of numerals of one length, the one of the smaller number comes first. -/
theorem digits_lt {ds es : List Char} (hds : ∀ c ∈ ds, c.isDigit) (hes : ∀ c ∈ es, c.isDigit)
    (hlen : ds.length = es.length) {i : ℕ}
    (hlt : Nat.ofDigitChars 10 ds i < Nat.ofDigitChars 10 es i) (us vs : List Char) :
    (ds ++ us).flatMap charUnits < (es ++ vs).flatMap charUnits := by
  induction ds generalizing es i with
  | nil =>
    obtain rfl := List.length_eq_zero_iff.mp hlen.symm
    exact absurd hlt (lt_irrefl _)
  | cons c cs ih =>
    cases es with
    | nil => cases hlen
    | cons d es =>
      have hcs : ∀ c ∈ cs, c.isDigit := fun x hx => hds x (List.mem_cons_of_mem _ hx)
      have hes' : ∀ c ∈ es, c.isDigit := fun x hx => hes x (List.mem_cons_of_mem _ hx)
      have hlen' : cs.length = es.length := Nat.succ.inj hlen
      rw [Nat.ofDigitChars_cons, Nat.ofDigitChars_cons] at hlt
      simp only [List.cons_append, List.flatMap_cons, charUnits_digit (hds c List.mem_cons_self),
        charUnits_digit (hes d List.mem_cons_self), List.nil_append, List.cons_lt_cons_iff]
      rcases lt_trichotomy c.toNat d.toNat with h | h | h
      · exact Or.inl h
      · rw [h] at hlt
        exact Or.inr ⟨h, ih hcs hes' hlen' hlt⟩
      · -- the first digit alone puts the first number above the second
        have hdigit := hes d List.mem_cons_self
        simp only [Char.isDigit, ge_iff_le, Bool.and_eq_true, decide_eq_true_eq] at hdigit
        have hd : 48 ≤ d.toNat := hdigit.1
        have hlow := (ofDigitChars_bounds hcs (10 * i + (c.toNat - 48))).1
        have hhigh := (ofDigitChars_bounds hes' (10 * i + (d.toNat - 48))).2
        have hmid : 10 ^ es.length * (10 * i + (d.toNat - 48) + 1) ≤
            10 ^ es.length * (10 * i + (c.toNat - 48)) := Nat.mul_le_mul_left _ (by omega)
        rw [hlen'] at hlow
        exact absurd hlt (not_lt.mpr ((hhigh.le.trans hmid).trans hlow))

theorem padStart_digits {a n : ℕ} (c : Char) (hc : c ∈ (padStart (toString a) n '0').toList) :
    c.isDigit := by
  rw [padStart, String.toList_ofList, List.mem_append, List.mem_replicate] at hc
  rcases hc with ⟨-, rfl⟩ | hc
  · rfl
  · have hc : c ∈ Nat.toDigits 10 a := by simpa using hc
    exact Nat.isDigit_of_mem_toDigits (by decide) (by decide) hc

theorem padStart_length {a n : ℕ} (h : a < 10 ^ n) (hn : 0 < n) :
    (padStart (toString a) n '0').toList.length = n := by
  have hlen : (toString a).length ≤ n := (Nat.length_repr_le_iff hn).mpr h
  rw [padStart, String.toList_ofList, List.length_append, List.length_replicate,
    String.length_toList]
  omega

theorem padStart_value (a n : ℕ) :
    Nat.ofDigitChars 10 (padStart (toString a) n '0').toList 0 = a := by
  rw [padStart, String.toList_ofList, Nat.ofDigitChars_append, Nat.ofDigitChars_replicate_zero]
  simp

/-- Numerals padded to one length come in the order of their numbers, whatever
stands after them. -/
theorem padStart_lt {a b n : ℕ} (hab : a < b) (hb : b < 10 ^ n) (us vs : List Char) :
    ((padStart (toString a) n '0').toList ++ us).flatMap charUnits <
      ((padStart (toString b) n '0').toList ++ vs).flatMap charUnits := by
  have hn : 0 < n := by
    rcases Nat.eq_zero_or_pos n with rfl | hn
    · omega
    · exact hn
  refine digits_lt (i := 0) padStart_digits padStart_digits ?_ ?_ us vs
  · rw [padStart_length (hab.trans hb) hn, padStart_length hb hn]
  · rw [padStart_value, padStart_value]
    exact hab

end Lib
