import Columnar.Page.Bits
import Columnar.Proofs.Reads
import Mathlib.Data.Nat.Digits.Defs

/-! # Packed numbers

Packing numbers of `w` bits spells the number that has them as digits in base `2 ^ w`, and unpacking
reads those digits off again. -/

namespace Columnar.Page

/-! ## Packing -/

theorem bitWidth_spec (n : ℕ) : n < 2 ^ bitWidth n := by
  unfold bitWidth
  split
  next h => omega
  next h => exact Nat.lt_log2_self

theorem bitWidth_le {n k : ℕ} (h : n < 2 ^ k) : bitWidth n ≤ k := by
  unfold bitWidth
  split
  next => omega
  next hn => exact (Nat.log2_lt hn).mpr h

/-- So many bytes and bits, counted in bits. -/
theorem bytes_mul_two_pow (k n : ℕ) : 256 ^ k * 2 ^ n = 2 ^ (8 * k + n) := by
  rw [show 256 = 2 ^ 8 by norm_num, ← pow_mul, ← pow_add]

/-- A number above `n` bits of another. -/
theorem add_mul_two_pow_lt {a b n k : ℕ} (ha : a < 2 ^ n) (hb : b < 2 ^ k) :
    a + b * 2 ^ n < 2 ^ (n + k) := by
  calc
    a + b * 2 ^ n < 2 ^ n + b * 2 ^ n := by omega
    _ = (b + 1) * 2 ^ n := by ring
    _ ≤ 2 ^ k * 2 ^ n := Nat.mul_le_mul_right _ hb
    _ = 2 ^ (n + k) := by rw [← pow_add, Nat.add_comm]

/-- The pending bits left behind the whole bytes of a number. -/
private theorem carry_lt {w bits carry v : ℕ} (hcarry : carry < 2 ^ bits) (hv : v < 2 ^ w) :
    (carry + v * 2 ^ bits) / 256 ^ ((bits + w) / 8) < 2 ^ ((bits + w) % 8) := by
  have hpow : 2 ^ (bits + w) = 2 ^ ((bits + w) % 8) * 256 ^ ((bits + w) / 8) := by
    rw [Nat.mul_comm, bytes_mul_two_pow, Nat.div_add_mod]
  rw [Nat.div_lt_iff_lt_mul (by positivity), ← hpow]
  exact add_mul_two_pow_lt hcarry hv

theorem length_packOnto (w : ℕ) (vs : List ℕ) :
    ∀ carry bits done, bits < 8 →
      (packOnto w vs carry bits done).length = done.length + (bits + w * vs.length + 7) / 8 := by
  induction vs with
  | nil =>
      intro carry bits done hbits
      by_cases h : bits = 0
      · simp [packOnto, h]
      · simp only [packOnto, h, if_false, List.length_reverse, List.length_cons,
          List.length_nil]
        omega
  | cons v vs ih =>
      intro carry bits done hbits
      rw [packOnto, ih _ _ _ (Nat.mod_lt _ (by omega))]
      simp only [List.length_append, List.length_reverse, Bytes.length_little, List.length_cons]
      rw [Nat.mul_add]
      omega

/-- Packing writes as many bytes as the bits of all numbers take. -/
theorem length_pack (w : ℕ) (vs : List ℕ) : (pack w vs).length = bytesFor (vs.length * w) := by
  rw [pack, length_packOnto w vs 0 0 [] (by omega), bytesFor, Nat.mul_comm]
  simp

theorem pack_zero (vs : List ℕ) : pack 0 vs = [] :=
  List.eq_nil_of_length_eq_zero (by simp [length_pack, bytesFor])

private theorem toNat_packOnto (w : ℕ) (vs : List ℕ) :
    ∀ carry bits done, bits < 8 → carry < 2 ^ bits → (∀ v ∈ vs, v < 2 ^ w) →
      Bytes.toNat (packOnto w vs carry bits done) =
        Bytes.toNat done.reverse
          + 256 ^ done.length * (carry + 2 ^ bits * Nat.ofDigits (2 ^ w) vs) := by
  induction vs with
  | nil =>
      intro carry bits done hbits hcarry _
      by_cases h : bits = 0
      · subst h
        obtain rfl : carry = 0 := by simpa using hcarry
        simp [packOnto]
      · have hbyte : carry < 256 := by
          calc
            carry < 2 ^ bits := hcarry
            _ ≤ 2 ^ 8 := Nat.pow_le_pow_right (by omega) (by omega)
        have htoNat : (UInt8.ofNat carry).toNat = carry := by simp; omega
        simp [packOnto, h, Bytes.toNat_append, Bytes.toNat, htoNat]
  | cons v vs ih =>
      intro carry bits done hbits hcarry hvs
      have hv : v < 2 ^ w := hvs v (by simp)
      have htail : ∀ v ∈ vs, v < 2 ^ w := fun v' h => hvs v' (by simp [h])
      have hpow : 2 ^ (bits + w) = 256 ^ ((bits + w) / 8) * 2 ^ ((bits + w) % 8) := by
        rw [bytes_mul_two_pow, Nat.div_add_mod]
      rw [packOnto, ih _ _ _ (Nat.mod_lt _ (by omega)) (carry_lt hcarry hv) htail]
      simp only [List.reverse_append, List.reverse_reverse, Bytes.toNat_append,
        Bytes.toNat_little, List.length_append, List.length_reverse, Bytes.length_little]
      set sum := carry + v * 2 ^ bits with hsum
      set whole := (bits + w) / 8
      set digits := Nat.ofDigits (2 ^ w) vs
      have hdivide : sum % 256 ^ whole + 256 ^ whole * (sum / 256 ^ whole) = sum :=
        Nat.mod_add_div sum _
      calc
        _ = Bytes.toNat done.reverse + 256 ^ done.length *
              ((sum % 256 ^ whole + 256 ^ whole * (sum / 256 ^ whole))
                + 256 ^ whole * 2 ^ ((bits + w) % 8) * digits) := by
          rw [pow_add]
          ring
        _ = Bytes.toNat done.reverse + 256 ^ done.length *
              (sum + 2 ^ (bits + w) * digits) := by rw [hdivide, ← hpow]
        _ = _ := by
          rw [hsum, Nat.ofDigits_cons, pow_add]
          ring

theorem toNat_pack {w : ℕ} {vs : List ℕ} (h : ∀ v ∈ vs, v < 2 ^ w) :
    Bytes.toNat (pack w vs) = Nat.ofDigits (2 ^ w) vs := by
  rw [pack, toNat_packOnto w vs 0 0 [] (by omega) (by omega) h]
  simp [Bytes.toNat]

/-! ## Unpacking -/

/-- The first `n` digits of a number in base `2 ^ w`, lowest first. -/
def lowDigits (w : ℕ) : ℕ → ℕ → List ℕ
  | 0, _ => []
  | n + 1, number => number % 2 ^ w :: lowDigits w n (number / 2 ^ w)

theorem length_lowDigits (w n number : ℕ) : (lowDigits w n number).length = n := by
  induction n generalizing number with
  | zero => rfl
  | succ n ih => rw [lowDigits, List.length_cons, ih]

theorem lt_of_mem_lowDigits {w n number d : ℕ} (h : d ∈ lowDigits w n number) : d < 2 ^ w := by
  induction n generalizing number with
  | zero => cases h
  | succ n ih =>
      rcases List.mem_cons.mp h with rfl | h
      · exact Nat.mod_lt _ (by positivity)
      · exact ih h

theorem getElem?_lowDigits (w n number i : ℕ) (h : i < n) :
    (lowDigits w n number)[i]? = some (number / 2 ^ (w * i) % 2 ^ w) := by
  induction n generalizing number i with
  | zero => omega
  | succ n ih =>
      rw [lowDigits]
      cases i with
      | zero => simp
      | succ i =>
          rw [List.getElem?_cons_succ, ih _ i (by omega), Nat.div_div_eq_div_mul, ← pow_add,
            Nat.mul_succ, Nat.add_comm w]

/-- The bits of the number that bytes spell are those of the bytes. -/
theorem toNat_bit {bs : Bytes} {b : UInt8} {i : ℕ} (h : bs[i / 8]? = some b) :
    Bytes.toNat bs / 2 ^ i % 2 = b.toNat / 2 ^ (i % 8) % 2 := by
  obtain ⟨hlt, rfl⟩ := List.getElem?_eq_some_iff.mp h
  have hpow : 2 ^ i = 256 ^ (i / 8) * 2 ^ (i % 8) := by
    rw [bytes_mul_two_pow, Nat.div_add_mod]
  have hbefore : Bytes.toNat (bs.take (i / 8)) < 256 ^ (i / 8) := by
    have hlen := Bytes.toNat_lt (bs.take (i / 8))
    rwa [List.length_take_of_le hlt.le] at hlen
  have hsplit : Bytes.toNat bs = Bytes.toNat (bs.take (i / 8)) +
      256 ^ (i / 8) * (bs[i / 8].toNat + 256 * Bytes.toNat (bs.drop (i / 8 + 1))) := by
    conv_lhs => rw [← List.take_append_drop (i / 8) bs]
    rw [Bytes.toNat_append, List.length_take_of_le hlt.le, List.drop_eq_getElem_cons hlt,
      Bytes.toNat]
  have hbyte : 256 = 2 ^ (i % 8) * (2 * 2 ^ (7 - i % 8)) := by
    have hall : ∀ k < 8, 256 = 2 ^ k * (2 * 2 ^ (7 - k)) := by decide
    exact hall _ (Nat.mod_lt i (by norm_num))
  rw [hpow, ← Nat.div_div_eq_div_mul, hsplit, Nat.add_mul_div_left _ _ (by positivity),
    Nat.div_eq_of_lt hbefore, Nat.zero_add, hbyte, Nat.mul_assoc,
    Nat.add_mul_div_left _ _ (by positivity), Nat.mul_assoc, Nat.add_mul_mod_self_left]

theorem lowDigits_ofDigits {w : ℕ} {vs : List ℕ} (h : ∀ v ∈ vs, v < 2 ^ w) (junk : ℕ) :
    lowDigits w vs.length (Nat.ofDigits (2 ^ w) vs + 2 ^ (w * vs.length) * junk) = vs := by
  induction vs with
  | nil => rfl
  | cons v vs ih =>
      have hv : v < 2 ^ w := h v (by simp)
      have hnumber : Nat.ofDigits (2 ^ w) (v :: vs) + 2 ^ (w * (v :: vs).length) * junk =
          v + 2 ^ w * (Nat.ofDigits (2 ^ w) vs + 2 ^ (w * vs.length) * junk) := by
        rw [Nat.ofDigits_cons, List.length_cons, Nat.mul_add, Nat.mul_one, pow_add]
        ring
      rw [hnumber, List.length_cons, lowDigits, Nat.add_mul_mod_self_left, Nat.mod_eq_of_lt hv,
        Nat.add_mul_div_left _ _ (by positivity), Nat.div_eq_of_lt hv, Nat.zero_add,
        ih (fun v' h' => h v' (by simp [h']))]

/-- What is unpacked are the digits of the pending bits with all bytes behind them. -/
private theorem unpackOnto_eq (w n : ℕ) :
    ∀ bs carry bits done, unpackOnto w n bs carry bits done =
      done.reverse ++ lowDigits w n (carry + Bytes.toNat bs * 2 ^ bits) := by
  induction n with
  | zero =>
      intro bs carry bits done
      simp [unpackOnto, lowDigits]
  | succ n ih =>
      intro bs carry bits done
      set need := (w - bits + 7) / 8 with hneed
      set sum := carry + Bytes.toNat (bs.take need) * 2 ^ bits with hsum
      set high := bits + 8 * need - w with hhigh
      have henough : w + high = bits + 8 * need := by omega
      -- Where fewer bytes are left than needed, nothing is left behind them.
      have hsplit : carry + Bytes.toNat bs * 2 ^ bits =
          sum + 2 ^ w * (Bytes.toNat (bs.drop need) * 2 ^ high) := by
        rcases Nat.lt_or_ge bs.length need with hshort | hlong
        · rw [hsum, List.take_of_length_le hshort.le, List.drop_of_length_le hshort.le]
          simp [Bytes.toNat]
        · have hbytes : Bytes.toNat bs =
              Bytes.toNat (bs.take need) + 256 ^ need * Bytes.toNat (bs.drop need) := by
            conv_lhs => rw [← List.take_append_drop need bs]
            rw [Bytes.toNat_append, List.length_take, Nat.min_eq_left hlong]
          have hpow : 2 ^ w * 2 ^ high = 2 ^ bits * 256 ^ need := by
            rw [← pow_add, henough, Nat.mul_comm (2 ^ bits), bytes_mul_two_pow, Nat.add_comm]
          calc
            _ = sum + (2 ^ bits * 256 ^ need) * Bytes.toNat (bs.drop need) := by
              rw [hsum, hbytes]
              ring
            _ = _ := by
              rw [← hpow]
              ring
      rw [unpackOnto, ih, lowDigits, hsplit, Nat.add_mul_mod_self_left,
        Nat.add_mul_div_left _ _ (by positivity)]
      simp [hsum, hneed, hhigh]

theorem unpack_eq (w n : ℕ) (bs : Bytes) : unpack w n bs = lowDigits w n (Bytes.toNat bs) := by
  rw [unpack, unpackOnto_eq]
  simp

/-- Numbers of `w` bits come back from their packed form, whatever stands behind it. -/
theorem unpack_pack_append {w : ℕ} {vs : List ℕ} (h : ∀ v ∈ vs, v < 2 ^ w) (rest : Bytes) :
    unpack w vs.length (pack w vs ++ rest) = vs := by
  have hbits : w * vs.length + (8 * (pack w vs).length - w * vs.length) =
      8 * (pack w vs).length := by
    have hlen := length_pack w vs
    rw [bytesFor, Nat.mul_comm] at hlen
    omega
  have hpow : 256 ^ (pack w vs).length =
      2 ^ (w * vs.length) * 2 ^ (8 * (pack w vs).length - w * vs.length) := by
    rw [← pow_add, hbits, pow_mul]
    norm_num
  rw [unpack_eq, Bytes.toNat_append, toNat_pack h, hpow, Nat.mul_assoc]
  exact lowDigits_ofDigits h _

open Decoder (Reads) in
theorem reads_pack {w : ℕ} {vs : List ℕ} (hw : w ≤ 64) (hrun : vs.length * w < 2 ^ 64)
    (h : ∀ v ∈ vs, v < 2 ^ w) : Reads (takeBits w vs.length) (pack w vs) vs := by
  have hwide : ¬ 64 < w := by omega
  have hlong : ¬ 2 ^ 64 ≤ vs.length * w := by omega
  by_cases hzero : w = 0
  · subst hzero
    have hvs : List.replicate vs.length 0 = vs := by
      refine (List.eq_replicate_of_mem fun v hv => ?_).symm
      simpa using h v hv
    intro rest
    rw [takeBits, if_neg hwide, if_pos rfl, hvs, pack_zero]
    rfl
  · have htake := Decoder.reads_take (pack w vs) "bit-packed values"
    rw [length_pack] at htake
    have hunpack : unpack w vs.length (pack w vs) = vs := by simpa using unpack_pack_append h []
    intro rest
    rw [takeBits, if_neg hwide, if_neg hzero, if_neg hlong]
    exact htake.bind_pure (by rw [hunpack]) rest

end Columnar.Page
