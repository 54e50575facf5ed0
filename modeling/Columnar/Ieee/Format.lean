import Columnar.Bytes

/-! Binary floating-point formats, seen as bit strings: a sign, an exponent field and a fraction
field. Values keep their bits, so payloads of NaN and the sign of zero survive. -/

namespace Columnar.Ieee

/-- The widths of the exponent and fraction fields. -/
structure Format where
  exponent : Nat
  fraction : Nat

def single : Format := ⟨8, 23⟩

def double : Format := ⟨11, 52⟩

/-- What a bit string stands for. A finite value is `significand * 2 ^ power`. -/
inductive Class
  | nan
  | infinite (negative : Bool)
  /-- The value below is nearer than the one above if `narrow` holds. -/
  | finite (negative : Bool) (significand : Nat) (power : Int) (narrow : Bool)

namespace Format

variable (f : Format)

def sign (bits : Nat) : Bool := bits / 2 ^ (f.fraction + f.exponent) % 2 = 1

def exponentField (bits : Nat) : Nat := bits / 2 ^ f.fraction % 2 ^ f.exponent

def fractionField (bits : Nat) : Nat := bits % 2 ^ f.fraction

/-- The power of two that the last bit of a significand with exponent field 1 stands for. -/
def leastPower : Int := 2 - 2 ^ (f.exponent - 1) - f.fraction

def classify (bits : Nat) : Class :=
  let e := f.exponentField bits
  let m := f.fractionField bits
  if e = 2 ^ f.exponent - 1 then if m = 0 then .infinite (f.sign bits) else .nan
  else if e = 0 then .finite (f.sign bits) m f.leastPower false
  else .finite (f.sign bits) (m + 2 ^ f.fraction) (f.leastPower + (e - 1)) (m = 0)

/-- Equality of the values: NaN differs from itself and both zeros are one. -/
def eq (a b : Nat) : Bool :=
  match f.classify a, f.classify b with
  | .nan, _ | _, .nan => false
  | .finite _ 0 _ _, .finite _ 0 _ _ => true
  | _, _ => a = b

end Format

/-- The place of a bit string in the total order of a format: negative ones backwards before
positive ones, NaNs at both ends. -/
def orderKey {w : Nat} (bits : BitVec w) : Nat :=
  if bits.msb then 2 ^ w - 1 - bits.toNat else bits.toNat + 2 ^ (w - 1)

theorem orderKey_lt {w : Nat} (bits : BitVec w) (h : 0 < w) : orderKey bits < 2 ^ w := by
  have hw : 2 ^ w = 2 * 2 ^ (w - 1) := by
    rw [← Nat.pow_succ', Nat.succ_eq_add_one, Nat.sub_add_cancel h]
  have hm := BitVec.msb_eq_decide bits
  unfold orderKey
  split <;> simp_all <;> omega

end Columnar.Ieee
