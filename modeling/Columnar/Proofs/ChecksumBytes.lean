import Columnar.Crc32c
import Mathlib.Data.Nat.Bitwise

/-! # What a checksum tells apart

The register can be wound back: each bit that passed through it left its mark in the highest bit. So
two byte strings that differ in one byte have different checksums. -/

namespace Columnar

namespace Crc32c

theorem and_one_eq_one_iff (r : UInt32) : r &&& 1 = 1 ↔ r.toNat % 2 = 1 := by
  rw [← UInt32.toNat_inj, UInt32.toNat_and]
  change r.toNat &&& 1 = 1 ↔ _
  rw [Nat.and_one_is_mod]

theorem toNat_shiftRight_one (r : UInt32) : (r >>> 1).toNat = r.toNat / 2 := by
  rw [UInt32.toNat_shiftRight]
  change r.toNat >>> 1 = _
  rw [Nat.shiftRight_one]

theorem toNat_shiftBit (r : UInt32) :
    (shiftBit r).toNat =
      if r.toNat % 2 = 1 then r.toNat / 2 ^^^ polynomial.toNat else r.toNat / 2 := by
  simp only [shiftBit, and_one_eq_one_iff]
  split
  · rw [UInt32.toNat_xor, toNat_shiftRight_one]
  · exact toNat_shiftRight_one r

/-- The highest bit tells whether the polynomial was added, which is whether the bit that left was
set. -/
theorem testBit_toNat_shiftBit (r : UInt32) :
    (shiftBit r).toNat.testBit 31 = decide (r.toNat % 2 = 1) := by
  have hhalf : (r.toNat / 2).testBit 31 = false := by
    have hr := r.toNat_lt
    exact Nat.testBit_lt_two_pow (by omega)
  have hpolynomial : polynomial.toNat.testBit 31 = true := by decide
  rw [toNat_shiftBit]
  split
  next hodd => rw [Nat.testBit_xor, hhalf, hpolynomial, decide_eq_true hodd, Bool.false_xor]
  next heven => rw [hhalf, decide_eq_false heven]

theorem shiftBit_injective : Function.Injective shiftBit := by
  intro r s h
  have hnat := congrArg UInt32.toNat h
  have hbit : (r.toNat % 2 = 1) ↔ (s.toNat % 2 = 1) := by
    rw [← decide_eq_decide, ← testBit_toNat_shiftBit, ← testBit_toNat_shiftBit, h]
  rw [toNat_shiftBit, toNat_shiftBit] at hnat
  apply UInt32.toNat_inj.mp
  by_cases hodd : r.toNat % 2 = 1
  · rw [if_pos hodd, if_pos (hbit.mp hodd)] at hnat
    have hhalves := Nat.xor_left_inj.mp hnat
    have hs := hbit.mp hodd
    omega
  · rw [if_neg hodd, if_neg (mt hbit.mpr hodd)] at hnat
    have hs := mt hbit.mpr hodd
    omega

/-- A register and a byte make up what is shifted out. -/
theorem shiftByte_eq_iff {r s : UInt32} {a b : UInt8} :
    shiftByte r a = shiftByte s b ↔ r ^^^ a.toUInt32 = s ^^^ b.toUInt32 := by
  simp only [shiftByte, shiftBit_injective.eq_iff]

theorem run_injective (bytes : Bytes) : Function.Injective (run · bytes) := by
  induction bytes with
  | nil => exact fun r s h => h
  | cons b bytes ih =>
      intro r s h
      exact UInt32.xor_left_inj _ |>.mp (shiftByte_eq_iff.mp (ih h))

end Crc32c

/-- One byte that is another makes another checksum. -/
theorem crc32c_ne {a b : UInt8} (h : a ≠ b) (xs ys : Bytes) :
    crc32c (xs ++ a :: ys) ≠ crc32c (xs ++ b :: ys) := by
  intro heq
  have hrun := (UInt32.xor_left_inj _).mp heq
  rw [Crc32c.run_append, Crc32c.run_append] at hrun
  have hbyte := Crc32c.shiftByte_eq_iff.mp (Crc32c.run_injective ys hrun)
  have hwide := congrArg UInt32.toNat ((UInt32.xor_right_inj _).mp hbyte)
  rw [UInt8.toNat_toUInt32, UInt8.toNat_toUInt32] at hwide
  exact h (UInt8.toNat_inj.mp hwide)

end Columnar
