import Columnar.Proofs.ValueOrder
import Columnar.Schema

/-! # The order of keys

Keys compare byte by byte as the cells do that they stand for, if of strings only the bytes that
count are looked at. -/

namespace Columnar

/-! ## Words, most significant byte first -/

/-- Numbers compare by what is left of their last byte, then by the last byte. -/
theorem compare_div_mod (m n : ℕ) :
    compare m n = (compare (m / 256) (n / 256)).then (compare (m % 256) (n % 256)) := by
  rcases Nat.lt_trichotomy (m / 256) (n / 256) with hlt | heq | hgt
  · rw [Nat.compare_eq_lt.mpr hlt, Nat.compare_eq_lt.mpr (by omega)]
    rfl
  · rw [Nat.compare_eq_eq.mpr heq, Ordering.eq_then]
    rcases Nat.lt_trichotomy (m % 256) (n % 256) with hlt | hsame | hgt
    · rw [Nat.compare_eq_lt.mpr hlt, Nat.compare_eq_lt.mpr (by omega)]
    · rw [Nat.compare_eq_eq.mpr hsame, Nat.compare_eq_eq.mpr (by omega)]
    · rw [Nat.compare_eq_gt.mpr hgt, Nat.compare_eq_gt.mpr (by omega)]
  · rw [Nat.compare_eq_gt.mpr hgt, Nat.compare_eq_gt.mpr (by omega)]
    rfl

theorem Bytes.big_succ (k n : ℕ) : big (k + 1) n = big k (n / 256) ++ [UInt8.ofNat n] := by
  rw [big, little, List.reverse_cons]
  rfl

theorem Bytes.compare_big {k m n : ℕ} (hm : m < 256 ^ k) (hn : n < 256 ^ k) (xs ys : Bytes) :
    compare (big k m ++ xs) (big k n ++ ys) = (compare m n).then (compare xs ys) := by
  induction k generalizing m n xs ys with
  | zero =>
      obtain rfl : m = 0 := by omega
      obtain rfl : n = 0 := by omega
      rfl
  | succ k ih =>
      rw [pow_succ] at hm hn
      have hlast : compare (UInt8.ofNat m) (UInt8.ofNat n) = compare (m % 256) (n % 256) := by
        rw [← compare_toNat, UInt8.toNat_ofNat', UInt8.toNat_ofNat']
      rw [big_succ, big_succ, List.append_assoc, List.append_assoc,
        ih (Nat.div_lt_of_lt_mul (by omega)) (Nat.div_lt_of_lt_mul (by omega)),
        List.singleton_append, List.singleton_append, List.compare_cons_cons, hlast,
        compare_div_mod m n, Ordering.then_assoc]

namespace SortKey

theorem toInt_add_biased {w : ℕ} (hw : 0 < w) (n : BitVec w) :
    (biased n : ℤ) = n.toInt + 2 ^ (w - 1) ∧ biased n < 2 ^ w := by
  have hlow := BitVec.le_two_mul_toInt (x := n)
  have hhigh := BitVec.two_mul_toInt_lt (x := n)
  have hpow : (2 : ℤ) ^ w = 2 * 2 ^ (w - 1) := by
    rw [← pow_succ', Nat.sub_add_cancel hw]
  rw [hpow] at hlow hhigh
  have hcast : (biased n : ℤ) = n.toInt + 2 ^ (w - 1) := by
    rw [biased, Int.toNat_of_nonneg (by omega)]
  refine ⟨hcast, ?_⟩
  rw [← Int.ofNat_lt, hcast, Nat.cast_pow, Nat.cast_two, hpow]
  omega

/-- Biased numbers compare as they did with their sign. -/
theorem compare_biased {w : ℕ} (hw : 0 < w) (m n : BitVec w) :
    compare (biased m) (biased n) = compare m.toInt n.toInt := by
  rw [← compare_natCast, (toInt_add_biased hw m).1, (toInt_add_biased hw n).1]
  simp only [compare, compareOfLessAndEq, Int.add_lt_add_iff_right, add_left_inj]

theorem compare_big_biased {w k : ℕ} (hw : 0 < w) (hk : 2 ^ w = 256 ^ k) (m n : BitVec w)
    (xs ys : Bytes) :
    compare (Bytes.big k (biased m) ++ xs) (Bytes.big k (biased n) ++ ys) =
      (compare m.toInt n.toInt).then (compare xs ys) := by
  have hm := (toInt_add_biased hw m).2
  have hn := (toInt_add_biased hw n).2
  rw [hk] at hm hn
  rw [Bytes.compare_big hm hn, compare_biased hw]

/-! ## Strings -/

theorem escape_cons (b : UInt8) (s : Bytes) :
    escape (b :: s) = (if b = 0 then [0, 255] else [b]) ++ escape s := rfl

theorem compare_zero {b : UInt8} (h : b ≠ 0) : compare 0 b = .lt ∧ compare b 0 = .gt := by
  have hpos : 0 < b.toNat := Nat.pos_of_ne_zero fun hzero => h (UInt8.toNat_inj.mp hzero)
  rw [← compare_toNat, ← compare_toNat]
  exact ⟨Nat.compare_eq_lt.mpr hpos, Nat.compare_eq_gt.mpr hpos⟩

theorem compare_append_self (pre xs ys : Bytes) :
    compare (pre ++ xs) (pre ++ ys) = compare xs ys := by
  induction pre with
  | nil => rfl
  | cons b pre ih =>
      rw [List.cons_append, List.cons_append, List.compare_cons_cons, ih, Std.ReflOrd.compare_self,
        Ordering.eq_then]

/-- The closing zeros sort before whatever a string goes on with. -/
theorem compare_escape (s t xs ys : Bytes) :
    compare (escape s ++ [0, 0] ++ xs) (escape t ++ [0, 0] ++ ys) =
      (compare s t).then (compare xs ys) := by
  induction s generalizing t with
  | nil =>
      cases t with
      | nil => rfl
      | cons b t =>
          rw [escape_cons]
          by_cases hb : b = 0
          · rw [if_pos hb]
            rfl
          · simp [if_neg hb, escape, List.compare_cons_cons, (compare_zero hb).1]
  | cons a s ih =>
      cases t with
      | nil =>
          rw [escape_cons]
          by_cases ha : a = 0
          · rw [if_pos ha]
            rfl
          · simp [if_neg ha, escape, List.compare_cons_cons, (compare_zero ha).2]
      | cons b t =>
          rw [List.compare_cons_cons, escape_cons, escape_cons]
          by_cases hab : a = b
          · subst hab
            simp only [List.append_assoc] at ih ⊢
            rw [compare_append_self, Std.ReflOrd.compare_self, Ordering.eq_then]
            exact ih t
          · have hne : compare a b ≠ .eq := fun heq => hab (Std.LawfulEqOrd.eq_of_compare heq)
            by_cases ha : a = 0
            · subst ha
              have hb : b ≠ 0 := fun hb => hab hb.symm
              simp [if_neg hb, List.compare_cons_cons, (compare_zero hb).1]
            · by_cases hb : b = 0
              · subst hb
                simp [if_neg ha, List.compare_cons_cons, (compare_zero ha).2]
              · simp only [if_neg ha, if_neg hb, List.cons_append, List.compare_cons_cons]
                cases hcmp : compare a b with
                | lt => rfl
                | eq => exact absurd hcmp hne
                | gt => rfl

/-! ## Values and cells -/

/-- What counts of a value. Only the first `limit` bytes of a string do, unless `limit` is 0. -/
def cutValue (limit : ℕ) : Value → Value
  | .bytes bs => .bytes (if limit = 0 then bs else bs.take limit)
  | v => v

/-- Keys of values of one kind compare as what counts of the values does. -/
theorem compare_encode {v w : Value} (h : v.kind = w.kind) (limit : ℕ) (xs ys : Bytes) :
    compare (encode limit v ++ xs) (encode limit w ++ ys) =
      ((cutValue limit v).cmp (cutValue limit w)).then (compare xs ys) := by
  cases v <;> cases w <;> try cases h
  case bool.bool a b => cases a <;> cases b <;> rfl
  case int8.int8 m n => exact compare_big_biased (by decide) (by decide) m n xs ys
  case int16.int16 m n => exact compare_big_biased (by decide) (by decide) m n xs ys
  case int32.int32 m n => exact compare_big_biased (by decide) (by decide) m n xs ys
  case int64.int64 m n => exact compare_big_biased (by decide) (by decide) m n xs ys
  case int128.int128 m n => exact compare_big_biased (by decide) (by decide) m n xs ys
  case float32.float32 a b =>
      apply Bytes.compare_big (Ieee.orderKey_lt a (by decide))
      exact Ieee.orderKey_lt b (by decide)
  case float64.float64 a b =>
      apply Bytes.compare_big (Ieee.orderKey_lt a (by decide))
      exact Ieee.orderKey_lt b (by decide)
  case date.date a b => exact Bytes.compare_big a.isLt b.isLt xs ys
  case datetime.datetime a b => exact Bytes.compare_big a.isLt b.isLt xs ys
  case decimal.decimal a b =>
      simp only [encode, List.append_assoc]
      rw [compare_big_biased (by decide) (by decide), compare_big_biased (by decide) (by decide),
        ← Ordering.then_assoc]
      rfl
  case bytes.bytes a b => exact compare_escape _ _ xs ys

end SortKey

/-- Absent values come before all others. -/
def Cell.cmp : Cell → Cell → Ordering
  | none, none => .eq
  | none, some _ => .lt
  | some _, none => .gt
  | some v, some w => v.cmp w

/-- Rows compare by their first cell, then by the next, as far as `n` cells. -/
def Row.cmp : (n : ℕ) → Row → Row → Ordering
  | 0, _, _ => .eq
  | n + 1, a, b => (Cell.cmp a.head?.join b.head?.join).then (Row.cmp n a.tail b.tail)

theorem SortKey.compare_encodeCell {a b : Cell} (h : ∀ v ∈ a, ∀ w ∈ b, v.kind = w.kind) (limit : ℕ)
    (xs ys : Bytes) :
    compare (encodeCell limit a ++ xs) (encodeCell limit b ++ ys) =
      (Cell.cmp (a.map (cutValue limit)) (b.map (cutValue limit))).then (compare xs ys) := by
  cases a with
  | none => cases b <;> rfl
  | some v =>
      cases b with
      | none => rfl
      | some w => exact compare_encode (h v rfl w rfl) limit xs ys

namespace Schema

/-- The cells are of the types of the columns. -/
def Typed : List ColumnSchema → Row → Prop
  | [], _ => True
  | c :: cs, row => (∀ v ∈ row.head?.join, v.kind = c.type.kind) ∧ Typed cs row.tail

/-- What counts of a row in a key of these columns. -/
def cutRow : List ColumnSchema → Row → Row
  | [], _ => []
  | c :: cs, row =>
    row.head?.join.map (SortKey.cutValue c.indexLength.toNat) :: cutRow cs row.tail

/-- Keys compare as what counts of the rows does. -/
theorem compare_keyOf {cs : List ColumnSchema} {a b : Row} (ha : Typed cs a) (hb : Typed cs b) :
    compare (keyOf cs a) (keyOf cs b) = Row.cmp cs.length (cutRow cs a) (cutRow cs b) := by
  induction cs generalizing a b with
  | nil => rfl
  | cons c cs ih =>
      rw [keyOf, keyOf, SortKey.compare_encodeCell fun v hv w hw =>
        (ha.1 v hv).trans (hb.1 w hw).symm, ih ha.2 hb.2]
      rfl

theorem length_shortKeys (s : Schema) : (s.columns.take s.shortKeys).length = s.shortKeys :=
  List.length_take_of_le (s.shortKeys_le.trans (List.takeWhile_prefix _).length_le)

end Schema

end Columnar
