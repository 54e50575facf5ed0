import Columnar.Text.Json.Token
import Mathlib.Tactic.NormNum

/-! # Decimal numerals

A number is printed with digits alone, and without a zero in front of others. -/

namespace Columnar

theorem head?_toDigits {n : ℕ} (h : n ≠ 0) : (Nat.toDigits 10 n).head? ≠ some '0' := by
  induction n using Nat.strong_induction_on with
  | _ n ih =>
      rcases Nat.lt_or_ge n 10 with hlow | hhigh
      · simpa [Nat.toDigits_of_lt_base hlow] using h
      · rw [Nat.toDigits_of_base_le (by norm_num) hhigh,
          List.head?_append, Option.or_of_isSome (by simp)]
        exact ih (n / 10) (by omega) (by omega)

end Columnar
