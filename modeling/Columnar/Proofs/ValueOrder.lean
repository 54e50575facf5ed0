import Columnar.Value
import Mathlib.Order.Defs.LinearOrder
import Mathlib.Tactic.Ring

/-! # The order of values

Values are compared by lists of numbers, which tell them apart, so their order is linear. -/

namespace Columnar

theorem compare_natCast (a b : ℕ) : compare (a : ℤ) (b : ℤ) = compare a b := by
  simp only [compare, compareOfLessAndEq, Int.ofNat_lt, Int.ofNat_inj]

theorem compare_uint8 (a b : UInt8) : compare (a.toNat : ℤ) (b.toNat : ℤ) = compare a b := by
  simp only [compare, compareOfLessAndEq, Int.ofNat_lt, Int.ofNat_inj, UInt8.toNat_inj,
    ← UInt8.lt_iff_toNat_lt]

theorem compare_toNat (a b : UInt8) : compare a.toNat b.toNat = compare a b :=
  (compare_natCast _ _).symm.trans (compare_uint8 a b)

/-- A map that keeps the order of items keeps that of lists. -/
theorem compare_map {α β : Type} [Ord α] [Ord β] {g : α → β}
    (hg : ∀ a b, compare (g a) (g b) = compare a b) (xs ys : List α) :
    compare (xs.map g) (ys.map g) = compare xs ys := by
  induction xs generalizing ys with
  | nil => cases ys <;> rfl
  | cons x xs ih =>
      cases ys with
      | nil => rfl
      | cons y ys => simp only [List.map_cons, List.compare_cons_cons, hg, ih]

/-- The fronts of strings in order are in order. -/
theorem Bytes.isLE_take {s t : Bytes} (h : (compare s t).isLE) (n : ℕ) :
    (compare (s.take n) (t.take n)).isLE := by
  induction n generalizing s t with
  | zero => rfl
  | succ n ih =>
      cases s with
      | nil => cases t <;> rfl
      | cons a s =>
          cases t with
          | nil => cases h
          | cons b t =>
              rw [List.take_succ_cons, List.take_succ_cons, List.compare_cons_cons,
                Ordering.isLE_then_iff_or]
              rw [List.compare_cons_cons, Ordering.isLE_then_iff_or] at h
              exact h.imp_right fun ⟨heq, htail⟩ => ⟨heq, ih htail⟩

/-- No two bit strings have one place in the order. -/
theorem Ieee.orderKey_injective {w : ℕ} (hw : 0 < w) {a b : BitVec w}
    (h : orderKey a = orderKey b) : a = b := by
  have hpow : 2 ^ w = 2 * 2 ^ (w - 1) := by
    rw [← pow_succ', Nat.sub_add_cancel hw]
  have ha := a.isLt
  have hb := b.isLt
  have hmsba := BitVec.msb_eq_decide a
  have hmsbb := BitVec.msb_eq_decide b
  apply BitVec.eq_of_toNat_eq
  unfold orderKey at h
  split at h <;> split at h <;> simp_all <;> omega

theorem Kind.rank_injective {k l : Kind} (h : k.rank = l.rank) : k = l := by
  cases k <;> cases l <;> first | rfl | exact absurd h (by decide)

namespace Value

/-- The numbers by which values of one kind are compared, one after the other. -/
def numbers : Value → List ℤ
  | .bool b => [b.toNat]
  | .int8 n => [n.toInt]
  | .int16 n => [n.toInt]
  | .int32 n => [n.toInt]
  | .int64 n => [n.toInt]
  | .int128 n => [n.toInt]
  | .float32 bits => [Ieee.orderKey bits]
  | .float64 bits => [Ieee.orderKey bits]
  | .date days => [days.toNat]
  | .datetime packed => [packed.toNat]
  | .decimal d => [d.integer.toInt, d.fraction.toInt]
  | .bytes bs => bs.map fun b => (b.toNat : ℤ)

theorem cmp_eq_numbers {v w : Value} (h : v.kind = w.kind) :
    v.cmp w = compare v.numbers w.numbers := by
  cases v <;> cases w <;> try cases h
  case bytes.bytes a b => exact (compare_map compare_uint8 a b).symm
  case decimal.decimal a b =>
      simp [cmp, Decimal.cmp, numbers, List.compare_cons_cons]
  all_goals simp [cmp, numbers, List.compare_cons_cons, compare_natCast]

theorem numbers_injective {v w : Value} (hk : v.kind = w.kind) (h : v.numbers = w.numbers) :
    v = w := by
  cases v <;> cases w <;> try cases hk
  case bool.bool a b => cases a <;> cases b <;> first | rfl | cases h
  case float32.float32 a b =>
      have hkey : Ieee.orderKey a = Ieee.orderKey b := by simpa [numbers] using h
      rw [Ieee.orderKey_injective (by decide) hkey]
  case float64.float64 a b =>
      have hkey : Ieee.orderKey a = Ieee.orderKey b := by simpa [numbers] using h
      rw [Ieee.orderKey_injective (by decide) hkey]
  case decimal.decimal a b =>
      obtain ⟨integer, fraction⟩ := a
      obtain ⟨integer', fraction'⟩ := b
      simpa [numbers, BitVec.toInt_inj] using h
  case bytes.bytes a b =>
      have hbytes := (List.map_inj_right fun x y hxy =>
        UInt8.toNat_inj.mp (Int.ofNat_inj.mp hxy)).mp h
      rw [hbytes]
  all_goals simpa [numbers, BitVec.toInt_inj, BitVec.toNat_inj] using h

theorem cmp_of_kind_ne {v w : Value} (h : v.kind ≠ w.kind) :
    v.cmp w = compare v.kind.rank w.kind.rank := by
  cases v <;> cases w <;> first | rfl | exact absurd rfl h

/-- By the kind, then by the numbers. -/
theorem cmp_eq_compareLex :
    cmp = compareLex (compareOn fun v => v.kind.rank) (compareOn numbers) := by
  funext v w
  by_cases h : v.kind = w.kind
  · rw [cmp_eq_numbers h]
    simp [compareLex, compareOn, h]
  · have hrank : compare v.kind.rank w.kind.rank ≠ .eq := by
      rw [ne_eq, Nat.compare_eq_eq]
      exact fun he => h (Kind.rank_injective he)
    rw [cmp_of_kind_ne h]
    cases hr : compare v.kind.rank w.kind.rank <;>
      simp_all [compareLex, compareOn]

instance : Std.ReflCmp cmp := cmp_eq_compareLex ▸ inferInstance

instance : Std.TransCmp cmp := cmp_eq_compareLex ▸ inferInstance

instance : Std.LawfulEqCmp cmp where
  eq_of_compare {v w} h := by
    rw [cmp_eq_compareLex, compareLex_eq_eq] at h
    have hk := Kind.rank_injective (Nat.compare_eq_eq.mp h.1)
    exact numbers_injective hk (Std.LawfulEqOrd.eq_of_compare h.2)

theorem cmp_swap (v w : Value) : w.cmp v = (v.cmp w).swap := Std.OrientedCmp.eq_swap

/-- Values are in the order in which they are compared. -/
instance : LinearOrder Value where
  le v w := (v.cmp w).isLE = true
  lt v w := v.cmp w = .lt
  le_refl v := Std.ReflCmp.isLE_rfl
  le_trans u v w huv hvw := Std.TransCmp.isLE_trans huv hvw
  lt_iff_le_not_ge v w := by
    rw [cmp_swap v w]
    cases v.cmp w <;> decide
  le_antisymm v w hvw hwv :=
    Std.LawfulEqCmp.eq_of_compare (Std.OrientedCmp.isLE_antisymm hvw hwv)
  le_total v w := by
    rw [cmp_swap v w]
    cases v.cmp w <;> decide
  toDecidableLE v w := inferInstanceAs (Decidable ((v.cmp w).isLE = true))
  toDecidableEq := inferInstance
  toDecidableLT v w := inferInstanceAs (Decidable (v.cmp w = .lt))
  compare := cmp
  compare_eq_compareOfLessAndEq v w := by
    change cmp v w = if cmp v w = .lt then .lt else if v = w then .eq else .gt
    by_cases hvw : v = w
    · subst hvw
      simp [Std.ReflCmp.compare_self]
    · have hne : v.cmp w ≠ .eq := fun heq => hvw (Std.LawfulEqCmp.eq_of_compare heq)
      cases hcmp : v.cmp w <;> simp_all

end Value

end Columnar
