/-! Byte strings, and words laid out in them least or most significant byte first. -/

namespace Columnar

/-- Powers of numbers are those of the core library, whatever else defines them. -/
@[default_instance 20000]
instance (priority := 20000) corePow {α : Type} [NatPow α] : Pow α Nat := instPowNat

abbrev Bytes := List UInt8

namespace Bytes

/-- The low `k` bytes of `n`, least significant first. -/
def little : Nat → Nat → Bytes
  | 0, _ => []
  | k + 1, n => UInt8.ofNat n :: little k (n / 256)

/-- The low `k` bytes of `n`, most significant first. -/
def big (k n : Nat) : Bytes := (little k n).reverse

/-- The number that bytes spell, least significant first. -/
def toNat : Bytes → Nat
  | [] => 0
  | b :: bs => b.toNat + 256 * toNat bs

@[simp] theorem length_little (k n : Nat) : (little k n).length = k := by
  induction k generalizing n with
  | zero => rfl
  | succ k ih => simp [little, ih]

@[simp] theorem length_big (k n : Nat) : (big k n).length = k := by simp [big]

@[simp] theorem toNat_little (k n : Nat) : toNat (little k n) = n % 256 ^ k := by
  induction k generalizing n with
  | zero => simp [little, toNat, Nat.mod_one]
  | succ k ih =>
    rw [little, toNat, ih, Nat.pow_succ, Nat.mul_comm (256 ^ k) 256, Nat.mod_mul]
    simp

/-- Bytes behind those that are gathered already. -/
def appendTo (bs : Bytes) (gathered : ByteArray) : ByteArray := bs.foldl ByteArray.push gathered

theorem append_appendTo (xs ys : Bytes) (gathered : ByteArray) :
    appendTo (xs ++ ys) gathered = appendTo ys (appendTo xs gathered) := List.foldl_append

@[simp] theorem toList_appendTo (bs : Bytes) (gathered : ByteArray) :
    (appendTo bs gathered).data.toList = gathered.data.toList ++ bs := by
  induction bs generalizing gathered with
  | nil => simp [appendTo]
  | cons b bs ih =>
    have hpush : (gathered.push b).data.toList = gathered.data.toList ++ [b] := Array.toList_push
    change (appendTo bs (gathered.push b)).data.toList = _
    rw [ih, hpush, List.append_assoc, List.singleton_append]

@[simp] theorem size_appendTo (bs : Bytes) (gathered : ByteArray) :
    (appendTo bs gathered).size = gathered.size + bs.length := by
  rw [ByteArray.size, ← Array.length_toList, toList_appendTo, List.length_append,
    Array.length_toList, ByteArray.size]

/-- Whether there are `n` bytes; looks at no more than those. -/
def hasAtLeast : Nat → Bytes → Bool
  | 0, _ => true
  | _ + 1, [] => false
  | n + 1, _ :: bs => hasAtLeast n bs

@[simp] theorem hasAtLeast_iff {n : Nat} {bs : Bytes} :
    hasAtLeast n bs = true ↔ n ≤ bs.length := by
  induction n generalizing bs with
  | zero => simp [hasAtLeast]
  | succ n ih => cases bs <;> simp [hasAtLeast, ih]

end Bytes

end Columnar
