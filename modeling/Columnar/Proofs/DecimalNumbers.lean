import Columnar.Proofs.KeyOrder
import Columnar.Proofs.Numerals

/-! # Decimals as numbers

A decimal with parts of one sign stands for a number of billionths. Decimals and their keys are in
the order of these numbers, and the text of a decimal is the number's expansion. -/

namespace Columnar

namespace Decimal

/-- The number that the decimal stands for, counted in billionths. -/
def billionths (d : Decimal) : ℤ := d.integer.toInt * 10 ^ 9 + d.fraction.toInt

/-- The fraction is less than one, and its sign is not opposite to that of the whole part. -/
structure Normal (d : Decimal) : Prop where
  fraction_le : d.fraction.toInt.natAbs ≤ 999999999
  nonneg_of_pos : 0 < d.integer.toInt → 0 ≤ d.fraction.toInt
  nonpos_of_neg : d.integer.toInt < 0 → d.fraction.toInt ≤ 0

variable {a b d : Decimal}

/-! ## Order -/

theorem Normal.billionths_lt (ha : a.Normal) (hb : b.Normal)
    (h : a.integer.toInt < b.integer.toInt) : a.billionths < b.billionths := by
  obtain ⟨hale, hapos, haneg⟩ := ha
  obtain ⟨hble, hbpos, hbneg⟩ := hb
  simp only [billionths]
  omega

/-- The whole part decides, and among equal ones the fraction. -/
theorem Normal.cmp_eq (ha : a.Normal) (hb : b.Normal) :
    a.cmp b = compare a.billionths b.billionths := by
  rw [cmp]
  rcases lt_trichotomy a.integer.toInt b.integer.toInt with hlt | heq | hgt
  · rw [compare_lt_iff_lt.mpr hlt, compare_lt_iff_lt.mpr (ha.billionths_lt hb hlt)]
    rfl
  · rw [compare_eq_iff_eq.mpr heq, Ordering.eq_then]
    simp only [billionths, heq, compare, compareOfLessAndEq, Int.add_lt_add_iff_left,
      add_right_inj]
  · rw [compare_gt_iff_gt.mpr hgt, compare_gt_iff_gt.mpr (hb.billionths_lt ha hgt)]
    rfl

theorem Normal.eq_of_billionths (ha : a.Normal) (hb : b.Normal)
    (h : a.billionths = b.billionths) : a = b := by
  have hcmp : (Value.decimal a).cmp (.decimal b) = .eq :=
    (ha.cmp_eq hb).trans (compare_eq_iff_eq.mpr h)
  exact Value.decimal.inj (Std.LawfulEqCmp.eq_of_compare hcmp)

/-- The key of a decimal has none of its bytes cut off. -/
theorem compare_encode (limit : ℕ) :
    compare (SortKey.encode limit (.decimal a)) (SortKey.encode limit (.decimal b)) = a.cmp b := by
  have h := SortKey.compare_encode (v := .decimal a) (w := .decimal b) rfl limit [] []
  simpa [SortKey.cutValue, Value.cmp] using h

/-! ## Text -/

/-- The text is the expansion of a number of billionths: its sign if it is below zero, the digits of
the whole part with no zero in front of others, a point, and nine digits. -/
def Expands (text : String) (n : ℤ) : Prop :=
  ∃ whole part : List Char,
    text.toList = (if n < 0 then ['-'] else []) ++ whole ++ '.' :: part ∧
    (∀ c ∈ whole ++ part, c.isDigit) ∧ (whole.head? = some '0' → whole = ['0']) ∧
    whole ≠ [] ∧ part.length = 9 ∧ Nat.ofDigitChars 10 (whole ++ part) 0 = n.natAbs

/-- No text is the expansion of two numbers. -/
theorem Expands.unique {text : String} {m n : ℤ} (hm : Expands text m) (hn : Expands text n) :
    m = n := by
  obtain ⟨whole, part, htext, hdigits, -, hne, hlen, hvalue⟩ := hm
  obtain ⟨whole', part', htext', hdigits', -, hne', hlen', hvalue'⟩ := hn
  obtain ⟨hfront, hpart⟩ := List.append_inj' (htext.symm.trans htext') (by simp [hlen, hlen'])
  obtain rfl : part = part' := (List.cons.inj hpart).2
  -- a sign is no digit
  have hsign : ∀ {w : List Char} (front : List Char), (∀ c ∈ w ++ part, c.isDigit) →
      w ≠ '-' :: front := by
    rintro _ front hw rfl
    exact absurd (hw '-' (by simp)) (by decide)
  by_cases hmneg : m < 0 <;> by_cases hnneg : n < 0 <;>
    simp only [hmneg, hnneg, if_true, if_false, List.nil_append, List.singleton_append,
      List.cons.injEq, true_and] at hfront
  · subst hfront
    omega
  · exact absurd hfront.symm (hsign _ hdigits')
  · exact absurd hfront (hsign _ hdigits)
  · subst hfront
    omega

theorem Normal.isNegative_iff (h : d.Normal) : d.isNegative = true ↔ d.billionths < 0 := by
  obtain ⟨hle, hpos, hneg⟩ := h
  simp only [isNegative, BitVec.msb_eq_toInt, Bool.or_eq_true, decide_eq_true_eq, billionths]
  omega

theorem Normal.natAbs_billionths (h : d.Normal) :
    d.billionths.natAbs = 10 ^ 9 * d.integer.toInt.natAbs + d.fraction.toInt.natAbs := by
  obtain ⟨hle, hpos, hneg⟩ := h
  simp only [billionths]
  omega

theorem Normal.expands (h : d.Normal) : Expands d.text d.billionths := by
  set digits := Nat.toDigits 10 d.fraction.toInt.natAbs with hdigits
  have hshort : digits.length ≤ 9 := by
    rw [hdigits, Nat.length_toDigits_le_iff (by norm_num) (by norm_num)]
    exact Nat.lt_of_le_of_lt h.fraction_le (by norm_num)
  refine ⟨Nat.toDigits 10 d.integer.toInt.natAbs, List.replicate (9 - digits.length) '0' ++ digits,
    ?_, ?_, ?_, Nat.toDigits_ne_nil, ?_, ?_⟩
  · simp only [text, String.toList_ofList, h.isNegative_iff, hdigits]
  · intro c hc
    rcases List.mem_append.mp hc with hc | hc
    · exact Nat.isDigit_of_mem_toDigits (by norm_num) (by norm_num) hc
    · rcases List.mem_append.mp hc with hc | hc
      · rw [List.eq_of_mem_replicate hc]
        decide
      · exact Nat.isDigit_of_mem_toDigits (by norm_num) (by norm_num) hc
  · intro hzero
    by_cases hn : d.integer.toInt.natAbs = 0
    · rw [hn, Nat.toDigits_zero]
    · exact absurd hzero (head?_toDigits hn)
  · rw [List.length_append, List.length_replicate, Nat.sub_add_cancel hshort]
  · calc Nat.ofDigitChars 10 (Nat.toDigits 10 d.integer.toInt.natAbs ++
            (List.replicate (9 - digits.length) '0' ++ digits)) 0
        = Nat.ofDigitChars 10 digits (10 ^ (9 - digits.length) * d.integer.toInt.natAbs) := by
          rw [Nat.ofDigitChars_append, Nat.ofDigitChars_append, Nat.ofDigitChars_ten_toDigits,
            Nat.ofDigitChars_replicate_zero]
      _ = 10 ^ digits.length * (10 ^ (9 - digits.length) * d.integer.toInt.natAbs)
            + d.fraction.toInt.natAbs := by
          rw [Nat.ofDigitChars_eq_ofDigitChars_zero, hdigits, Nat.ofDigitChars_ten_toDigits]
      _ = 10 ^ 9 * d.integer.toInt.natAbs + d.fraction.toInt.natAbs := by
          rw [← Nat.mul_assoc, ← pow_add, Nat.add_sub_cancel' hshort]
      _ = d.billionths.natAbs := h.natAbs_billionths.symm

end Decimal

/-- Decimals with parts of one sign compare as the numbers that they stand for, and so do their
keys. The text of each is the expansion of its number and of no other, so that different decimals
print differently. -/
theorem decimals_are_numbers {a b : Decimal} (ha : a.Normal) (hb : b.Normal) (limit : ℕ) :
    (Value.decimal a).cmp (.decimal b) = compare a.billionths b.billionths ∧
      compare (SortKey.encode limit (.decimal a)) (SortKey.encode limit (.decimal b)) =
        compare a.billionths b.billionths ∧
      (∀ n, Decimal.Expands a.text n ↔ n = a.billionths) ∧ (a.text = b.text ↔ a = b) := by
  have hcmp := ha.cmp_eq hb
  refine ⟨hcmp, (Decimal.compare_encode limit).trans hcmp, fun n => ⟨fun hn => ?_, ?_⟩,
    fun htext => ?_, congrArg Decimal.text⟩
  · exact hn.unique ha.expands
  · rintro rfl
    exact ha.expands
  · have hexpands := ha.expands
    rw [htext] at hexpands
    exact ha.eq_of_billionths hb (hexpands.unique hb.expands)

/-- The least whole part, against a fraction that alone is below zero. -/
theorem decimals_are_numbers_negative :
    let a : Decimal := ⟨BitVec.intMin 64, -999999999⟩
    let b : Decimal := ⟨0, -5⟩
    a.Normal ∧ b.Normal ∧ a.text = "-9223372036854775808.999999999" ∧ b.text = "-0.000000005" ∧
      (Value.decimal a).cmp (.decimal b) = compare a.billionths b.billionths ∧
      compare (SortKey.encode 0 (.decimal a)) (SortKey.encode 0 (.decimal b)) =
        compare a.billionths b.billionths ∧
      (∀ n, Decimal.Expands a.text n ↔ n = a.billionths) ∧ (a.text = b.text ↔ a = b) := by
  intro a b
  have ha : a.Normal := ⟨by decide, by decide, by decide⟩
  have hb : b.Normal := ⟨by decide, by decide, by decide⟩
  exact ⟨ha, hb, by decide +kernel, by decide +kernel, decimals_are_numbers ha hb 0⟩

end Columnar
