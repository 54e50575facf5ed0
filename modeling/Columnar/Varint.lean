import Columnar.Decoder

/-! Variable-length integers: seven bits to the byte, low end first, and the top bit of a byte set
where another follows. A varint reads as a word of 64 bits. -/

namespace Columnar.Varint

def encode (n : Nat) : Bytes :=
  if n < 128 then [UInt8.ofNat n]
  else UInt8.ofNat (n % 128 + 128) :: encode (n / 128)

/-- How many bits a number takes; 0 takes one. -/
def bitLength (n : Nat) : Nat := (n ||| 1).log2 + 1

/-- The length of `encode n`. -/
def size (n : Nat) : Nat := (bitLength n + 6) / 7

/-- Reads on with `index` bytes read so far and `value` their sum; a varint of a word has at most
ten bytes, and the last of ten carries one bit. -/
def decodeFrom (index value : Nat) : Bytes → Except Corruption (Nat × Bytes)
  | [] => .error .varintTruncated
  | b :: bs =>
    let digit := b.toNat % 128
    if 9 < index ∨ (index = 9 ∧ 1 < digit) then .error .varintOverflow
    else
      let value := value + digit * 128 ^ index
      if b.toNat < 128 then .ok (value, bs) else decodeFrom (index + 1) value bs

/-- The next varint. A failure leaves it unread. -/
def decode : Decoder Nat := fun bs =>
  match decodeFrom 0 0 bs with
  | .ok (value, rest) => .ok value rest
  | .error cause => .error (.corruption cause) bs

/-- The next varint, which has to fit 32 bits. One that does not has been read all the same. -/
def decode32 : Decoder UInt32 := do
  let value ← decode
  if value < 2 ^ 32 then return UInt32.ofNat value else Decoder.fail (.varintTooLarge value)

theorem bitLength_le_iff {n k : Nat} (hk : 0 < k) : bitLength n ≤ k ↔ n < 2 ^ k := by
  have hone : 1 < 2 ^ k := Nat.one_lt_two_pow (by omega)
  have hne : n ||| 1 ≠ 0 := by
    have : 1 ≤ n ||| 1 := Nat.right_le_or
    omega
  have hlog : bitLength n ≤ k ↔ (n ||| 1).log2 < k := Nat.succ_le_iff
  rw [hlog, Nat.log2_lt hne]
  exact ⟨Nat.lt_of_le_of_lt Nat.left_le_or, fun h => Nat.or_lt_two_pow h hone⟩

theorem size_pos (n : Nat) : 0 < size n := by
  rw [size, bitLength]
  omega

/-- Numbers of at most `k` bytes are those of at most `7 * k` bits. -/
theorem size_le_iff {n k : Nat} (hk : 0 < k) : size n ≤ k ↔ n < 128 ^ k := by
  have hpow : 128 ^ k = 2 ^ (7 * k) := (Nat.pow_mul 2 7 k).symm
  rw [hpow, ← bitLength_le_iff (by omega), size]
  omega

theorem size_eq_one {n : Nat} (h : n < 128) : size n = 1 :=
  Nat.le_antisymm ((size_le_iff (by decide)).2 (by simpa using h)) (size_pos n)

/-- Each byte holds seven bits. -/
theorem size_succ {n : Nat} (h : 128 ≤ n) : size n = 1 + size (n / 128) := by
  have hmore : ¬ size n ≤ 1 := by
    rw [size_le_iff (by decide)]
    omega
  -- what a number of bytes holds grows 128 times with each byte
  have hstep : ∀ k, 0 < k → (size n ≤ 1 + k ↔ size (n / 128) ≤ k) := by
    intro k hk
    rw [size_le_iff (by omega), size_le_iff hk, Nat.div_lt_iff_lt_mul (by decide), Nat.add_comm,
      Nat.pow_succ]
  have hle := (hstep _ (size_pos (n / 128))).2 (Nat.le_refl _)
  have hge := (hstep (size n - 1) (by omega)).1 (by omega)
  omega

theorem length_encode (n : Nat) : (encode n).length = size n := by
  fun_induction encode n with
  | case1 n h => rw [size_eq_one h, List.length_singleton]
  | case2 n h ih => rw [size_succ (by omega), List.length_cons, ih, Nat.add_comm]

end Columnar.Varint
