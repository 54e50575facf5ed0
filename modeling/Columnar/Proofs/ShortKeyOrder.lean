import Columnar.Proofs.KeyOrder

/-! # The order of short keys

Short keys compare, byte by byte, exactly as what counts of the rows does, cell by cell. Floats are
in the total order that reads their bits as signed numbers. -/

namespace Columnar

/-! ## Signs turned over -/

/-- Turning over one bit of a number that has none above it. -/
theorem xor_two_pow {n k : ℕ} (h : n < 2 ^ (k + 1)) :
    n ^^^ 2 ^ k = if n < 2 ^ k then n + 2 ^ k else n - 2 ^ k := by
  have hpos := Nat.two_pow_pos k
  have hlow : (n ^^^ 2 ^ k) % 2 ^ k = n % 2 ^ k := by
    rw [Nat.xor_mod_two_pow, Nat.mod_self, Nat.xor_zero]
  have hhigh : (n ^^^ 2 ^ k) / 2 ^ k = n / 2 ^ k ^^^ 1 := by
    rw [Nat.xor_div_two_pow, Nat.div_self hpos]
  have hsplit := Nat.div_add_mod n (2 ^ k)
  rw [← Nat.div_add_mod (n ^^^ 2 ^ k) (2 ^ k), hlow, hhigh]
  rw [pow_succ] at h
  split
  next hlt => rw [Nat.div_eq_of_lt hlt, Nat.mod_eq_of_lt hlt, Nat.zero_xor]; omega
  next hge =>
    have hone : n / 2 ^ k = 1 := Nat.div_eq_of_lt_le (by omega) (by omega)
    rw [hone] at hsplit ⊢
    rw [Nat.xor_self]
    omega

namespace SortKey

/-- A signed number is biased by turning over its sign. -/
theorem toNat_xor_intMin {w : ℕ} (hw : 0 < w) (n : BitVec w) :
    (n ^^^ BitVec.intMin w).toNat = biased n := by
  obtain ⟨k, rfl⟩ := Nat.exists_eq_succ_of_ne_zero hw.ne'
  have hpow : 2 ^ (k + 1) = 2 * 2 ^ k := pow_succ' 2 k
  have hcast : ((2 ^ (k + 1) : ℕ) : ℤ) = 2 * 2 ^ k := by
    rw [hpow]
    push_cast
    rfl
  rw [← Int.ofNat_inj, (toInt_add_biased hw n).1, BitVec.toNat_xor, BitVec.toNat_intMin_of_pos hw,
    BitVec.toInt_eq_toNat_cond, Nat.succ_sub_one, xor_two_pow n.isLt, hcast]
  split <;> split <;> push_cast <;> omega

end SortKey

namespace Ieee

variable {w : ℕ}

/-- The place of a bit string in the total order is told by all bits turned over behind a set sign,
and by the sign turned over otherwise. -/
theorem toNat_turned (hw : 0 < w) (bits : BitVec w) :
    (if bits.msb then ~~~bits else bits ^^^ BitVec.intMin w).toNat = orderKey bits := by
  rw [orderKey]
  cases hmsb : bits.msb with
  | false =>
      have hcast := (SortKey.toInt_add_biased hw bits).1
      rw [BitVec.toInt_eq_toNat_of_msb hmsb] at hcast
      rw [if_neg Bool.false_ne_true, if_neg Bool.false_ne_true, SortKey.toNat_xor_intMin hw]
      exact_mod_cast hcast
  | true => rw [if_pos rfl, if_pos rfl, BitVec.toNat_not]

/-- The signed number that stands for a bit string in the total order: behind a set sign all other
bits are turned over. -/
def signed (bits : BitVec w) : BitVec w := bits ^^^ bits.sshiftRight (w - 1) >>> 1

/-- The total order of floats, NaNs and signed zeros among them. -/
def totalCmp (a b : BitVec w) : Ordering := compare (signed a).toInt (signed b).toInt

theorem signed_xor_intMin (bits : BitVec w) :
    signed bits ^^^ BitVec.intMin w =
      if bits.msb then ~~~bits else bits ^^^ BitVec.intMin w := by
  have hmask : ∀ i < w, (bits.sshiftRight (w - 1) >>> 1).getLsbD i =
      (!decide (i + 1 = w) && bits.msb) := by
    intro i hi
    rw [BitVec.getLsbD_ushiftRight, BitVec.getLsbD_sshiftRight,
      if_neg (show ¬ w - 1 + (1 + i) < w by omega)]
    congr 2
    exact decide_eq_decide.mpr (by omega)
  rw [signed]
  cases hmsb : bits.msb with
  | false =>
      have hzero : bits.sshiftRight (w - 1) >>> 1 = 0#w :=
        BitVec.eq_of_getLsbD_eq fun i hi => by
          rw [hmask i hi, hmsb, Bool.and_false, BitVec.getLsbD_zero]
      rw [hzero, BitVec.xor_zero, if_neg Bool.false_ne_true]
  | true =>
      have hones : bits.sshiftRight (w - 1) >>> 1 = ~~~BitVec.intMin w :=
        BitVec.eq_of_getLsbD_eq fun i hi => by
          rw [hmask i hi, hmsb, Bool.and_true, BitVec.getLsbD_not, BitVec.getLsbD_intMin,
            decide_eq_true hi, Bool.true_and]
      rw [hones, if_pos rfl, ← BitVec.not_xor_right, BitVec.not_xor_left, BitVec.xor_assoc,
        BitVec.xor_self, BitVec.xor_zero]

theorem compare_orderKey (hw : 0 < w) (a b : BitVec w) :
    compare (orderKey a) (orderKey b) = totalCmp a b := by
  have hbiased : ∀ bits : BitVec w, SortKey.biased (signed bits) = orderKey bits := fun bits => by
    rw [← SortKey.toNat_xor_intMin hw, signed_xor_intMin, toNat_turned hw]
  rw [← hbiased, ← hbiased, SortKey.compare_biased hw, totalCmp]

end Ieee

/-! ## Equal keys -/

theorem Cell.cmp_eq_eq_iff {a b : Cell} : Cell.cmp a b = .eq ↔ a = b := by
  cases a with
  | none => cases b <;> simp [Cell.cmp]
  | some v =>
      cases b with
      | none => simp [Cell.cmp]
      | some w => rw [Cell.cmp, Std.LawfulEqCmp.compare_eq_iff_eq, Option.some_inj]

theorem Row.cmp_eq_eq_iff {n : ℕ} {a b : Row} (ha : a.length = n) (hb : b.length = n) :
    Row.cmp n a b = .eq ↔ a = b := by
  induction n generalizing a b with
  | zero =>
      rw [List.length_eq_zero_iff.mp ha, List.length_eq_zero_iff.mp hb]
      exact iff_of_true rfl rfl
  | succ n ih =>
      obtain ⟨c, a, rfl⟩ := List.exists_cons_of_length_eq_add_one ha
      obtain ⟨d, b, rfl⟩ := List.exists_cons_of_length_eq_add_one hb
      rw [Row.cmp, Ordering.then_eq_eq, List.head?_cons, List.head?_cons, Option.join_some,
        Option.join_some, Cell.cmp_eq_eq_iff, List.tail_cons, List.tail_cons,
        ih (Nat.succ.inj ha) (Nat.succ.inj hb), List.cons.injEq]

namespace Schema

@[simp] theorem length_cutRow (cs : List ColumnSchema) (row : Row) :
    (cutRow cs row).length = cs.length := by
  induction cs generalizing row with
  | nil => rfl
  | cons c cs ih => rw [cutRow, List.length_cons, ih, List.length_cons]

end Schema

/-- Short keys of rows with cells of the types of the columns compare as the rows do by their
short-key cells, if of strings only the bytes that count are looked at, and are equal exactly if
these cells are. Floats are compared in the total order. -/
theorem short_keys_compare_as_rows (s : Schema) {a b : Row}
    (ha : Schema.Typed (s.columns.take s.shortKeys) a)
    (hb : Schema.Typed (s.columns.take s.shortKeys) b) :
    let counts := Schema.cutRow (s.columns.take s.shortKeys)
    compare (s.shortKey a) (s.shortKey b) = Row.cmp s.shortKeys (counts a) (counts b) ∧
      (s.shortKey a = s.shortKey b ↔ counts a = counts b) ∧
      (∀ x y, (Value.float32 x).cmp (.float32 y) = Ieee.totalCmp x y) ∧
      (∀ x y, (Value.float64 x).cmp (.float64 y) = Ieee.totalCmp x y) := by
  intro counts
  have hcompare : compare (s.shortKey a) (s.shortKey b) =
      Row.cmp s.shortKeys (counts a) (counts b) := by
    rw [Schema.shortKey, Schema.shortKey, Schema.compare_keyOf ha hb, s.length_shortKeys]
  have hlen : ∀ row, (counts row).length = s.shortKeys := fun row =>
    (Schema.length_cutRow _ row).trans s.length_shortKeys
  refine ⟨hcompare, ?_, Ieee.compare_orderKey (by decide), Ieee.compare_orderKey (by decide)⟩
  rw [← Std.LawfulEqOrd.compare_eq_iff_eq, hcompare, Row.cmp_eq_eq_iff (hlen a) (hlen b)]

/-- Strings are cut behind zeros and a 255, numbers are NaNs or a negative zero, and the first and
the last key are equal. -/
theorem short_keys_compare_as_rows_cut :
    let schema : Schema := {
      columns := [
        { uniqueId := 1, name := "s", type := .varchar, indexLength := 3, isKey := true },
        { uniqueId := 2, name := "x", type := .double, isKey := true },
        { uniqueId := 4, name := "d", type := .decimal, isKey := true }]
      shortKeys := 3
      nonempty := by decide
      distinct := by decide
      keysFirst := by decide
      shortKeys_le := by decide }
    let nan : BitVec 64 := 0x7ff8000000000000
    let rows : List Row := [[some (.bytes [0, 255, 0, 9]), some (.float64 nan), none],
      [some (.bytes [0, 255, 0, 7]), some (.float64 (1 <<< 63)), some (.decimal ⟨-1, -5⟩)],
      [some (.bytes [0, 255, 0]), some (.float64 nan), none]]
    let counts := Schema.cutRow (schema.columns.take schema.shortKeys)
    (∀ row ∈ rows, Schema.Typed (schema.columns.take schema.shortKeys) row) ∧
      ∀ a ∈ rows, ∀ b ∈ rows,
        compare (schema.shortKey a) (schema.shortKey b) = Row.cmp 3 (counts a) (counts b) ∧
          (schema.shortKey a = schema.shortKey b ↔ counts a = counts b) := by
  intro schema nan rows counts
  have htyped : ∀ row ∈ rows, Schema.Typed (schema.columns.take schema.shortKeys) row := by
    simp [rows, schema, Schema.Typed, Value.kind, FieldType.kind]
  refine ⟨htyped, fun a ha b hb => ?_⟩
  have hkeys := short_keys_compare_as_rows schema (htyped a ha) (htyped b hb)
  exact ⟨hkeys.1, hkeys.2.1⟩

end Columnar
