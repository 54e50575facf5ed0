import Columnar.Proofs.IndexParsing
import Columnar.Proofs.Machine.Words

/-! # Readers as a machine runs them

Each reader is told once more with the operations of the machine that it takes. It does what the
reader does on every byte string, and no operation stops it. -/

namespace Columnar.Machine

/-! ## Cursors -/

def take (n : ℕ) (what : String) : Run Bytes Bytes := do
  let cursor ← get
  if cursor.length < n then throw (.corruption (.truncated what n cursor.length))
  let head ← slice cursor 0 n
  let tail ← slice cursor n cursor.length
  set tail
  return head

theorem take_eq (n : ℕ) (what : String) : take n what = whole (Decoder.take n what) := by
  funext bs
  rw [take, get_bind]
  by_cases hshort : bs.length < n
  · rw [if_pos hshort, whole, Decoder.take_eq_error hshort]
    rfl
  · have hlong : n ≤ bs.length := by omega
    rw [if_neg hshort, slice_take hlong, slice_drop hlong, whole, Decoder.take_eq_ok hlong]
    rfl

def byte (what : String) : Run Bytes UInt8 := do
  let bytes ← take 1 what
  let b ← index bytes 0
  return b

theorem byte_eq (what : String) : byte what = whole (Decoder.byte what) := by
  funext bs
  rw [byte, take_eq]
  cases bs <;> rfl

/-- The first `k` bytes, copied one by one. -/
def copy (k : ℕ) (bytes : Bytes) : Option Bytes := (List.range k).mapM (index bytes)

theorem copy_eq (bytes : Bytes) : copy bytes.length bytes = some bytes :=
  mapM_range_eq_some fun _ _ h => h

def word (k : ℕ) (what : String) : Run Bytes ℕ := do
  let bytes ← take k what
  let copied ← copy k bytes
  return Bytes.toNat copied

theorem word_eq (k : ℕ) (what : String) : word k what = whole (Decoder.word k what) := by
  funext bs
  rw [word, take_eq, Decoder.word]
  refine bind_whole fun bytes rest htake => ?_
  obtain ⟨-, rfl⟩ := Decoder.take_eq_ok_iff.mp htake
  rw [copy_eq]
  rfl

def word32 (what : String) : Run Bytes UInt32 := do
  let n ← word 4 what
  return UInt32.ofNat n

theorem word32_eq (what : String) : word32 what = whole (Decoder.word32 what) := by
  rw [word32, Decoder.word32, whole_bind, word_eq]
  rfl

theorem word_of_le {k : ℕ} {what : String} {bs : Bytes} (h : k ≤ bs.length) :
    word k what bs = some (.ok (Bytes.toNat (bs.take k)), bs.drop k) := by
  have htake : Decoder.take k what bs = _ := Decoder.take_eq_ok h
  rw [word_eq, whole]
  change some (settle (EStateM.bind _ _ bs)) = _
  rw [EStateM.bind, htake]
  rfl

theorem word32_of_le {what : String} {bs : Bytes} (h : 4 ≤ bs.length) :
    word32 what bs = some (.ok (UInt32.ofNat (Bytes.toNat (bs.take 4))), bs.drop 4) := by
  change ((word 4 what bs).bind _) = _
  rw [word_of_le h]
  rfl

def word64 (what : String) : Run Bytes UInt64 := do
  let n ← word 8 what
  return UInt64.ofNat n

theorem word64_eq (what : String) : word64 what = whole (Decoder.word64 what) := by
  rw [word64, Decoder.word64, whole_bind, word_eq]
  rfl

def flag (what : String) : Run Bytes Bool := do
  let b ← byte what
  if b = 0 then return false
  else if b = 1 then return true
  else throw (.corruption (.flag what b))

theorem flag_eq (what : String) : flag what = whole (Decoder.flag what) := by
  simp only [flag, Decoder.flag, whole_bind, whole_ite, byte_eq]
  rfl

def remaining : Run Bytes ℕ := do
  let cursor ← get
  return cursor.length

theorem remaining_eq : remaining = whole Decoder.remaining := rfl

section

variable {α : Type}

def named (what : String) (ofId? : UInt8 → Option α) (unknown : UInt8 → Corruption) :
    Run Bytes α := do
  let b ← byte what
  match ofId? b with
  | some a => return a
  | none => throw (.corruption (unknown b))

theorem named_eq (what : String) (ofId? : UInt8 → Option α) (unknown : UInt8 → Corruption) :
    named what ofId? unknown = whole (Decoder.named what ofId? unknown) := by
  rw [named, Decoder.named, whole_bind, byte_eq]
  congr
  funext b
  cases ofId? b <;> rfl

def repeatOnto (p : Run Bytes α) : ℕ → List α → Run Bytes (List α)
  | 0, done => return done.reverse
  | n + 1, done => do
    let a ← p
    repeatOnto p n (a :: done)

def times (n : ℕ) (p : Run Bytes α) : Run Bytes (List α) := repeatOnto p n []

theorem times_eq (n : ℕ) (p : Decoder α) : times n (whole p) = whole (Decoder.times n p) := by
  suffices h : ∀ done, repeatOnto (whole p) n done = whole (Decoder.repeatOnto p n done) from h []
  induction n with
  | zero => exact fun done => rfl
  | succ n ih =>
      intro done
      rw [Decoder.repeatOnto_succ, whole_bind, repeatOnto]
      exact congrArg (whole p >>= ·) (funext fun a => ih (a :: done))

end

/-! ## Varints -/

/-- Reads on behind the first `i` bytes of the cursor. -/
def varintFrom (cursor : Bytes) :
    (unread : Bytes) → (i value shift : ℕ) → Option (Except Corruption (ℕ × Bytes))
  | [], _, _, _ => return .error .varintTruncated
  | b :: unread, i, value, shift =>
    let digit := b.toNat &&& 127
    if 64 ≤ shift ∨ (shift = 63 ∧ 1 < digit) then return .error .varintOverflow
    else do
      let part ← shiftLeft 64 digit shift
      let value := value ||| part
      if b.toNat &&& 128 = 0 then
        let next ← add 64 i 1
        let rest ← slice cursor next cursor.length
        return .ok (value, rest)
      else
        let shift ← add 31 shift 7
        varintFrom cursor unread (i + 1) value shift

def varint : Run Bytes ℕ := do
  let cursor ← get
  let found ← varintFrom cursor cursor 0 0 0
  match found with
  | .ok (value, rest) =>
    set rest
    return value
  | .error cause => throw (.corruption cause)

def varint32 : Run Bytes UInt32 := do
  let value ← varint
  if value < 2 ^ 32 then return UInt32.ofNat value
  else throw (.corruption (.varintTooLarge value))

/-- The top bit of a byte says whether another follows. -/
theorem and_128_eq_zero_iff (b : UInt8) : b.toNat &&& 128 = 0 ↔ b.toNat < 128 := by
  have hall : ∀ n < 256, n &&& 128 = 0 ↔ n < 128 := by decide +kernel
  exact hall b.toNat b.toNat_lt

theorem varintFrom_eq (cursor unread : Bytes) :
    ∀ i value, cursor.drop i = unread → value < 2 ^ (7 * i) →
      varintFrom cursor unread i value (7 * i) = some (Varint.decodeFrom i value unread) := by
  induction unread with
  | nil => exact fun i value _ _ => rfl
  | cons b unread ih =>
      intro i value hdrop hvalue
      have hdigit : b.toNat &&& 127 = b.toNat % 128 := Nat.and_two_pow_sub_one_eq_mod b.toNat 7
      have hpow : 128 ^ i = 2 ^ (7 * i) := (pow_mul 2 7 i).symm
      have hguard : (64 ≤ 7 * i ∨ 7 * i = 63 ∧ 1 < b.toNat % 128) ↔
          (9 < i ∨ i = 9 ∧ 1 < b.toNat % 128) := by omega
      simp only [varintFrom, Varint.decodeFrom, hdigit, hguard, hpow]
      by_cases hover : 9 < i ∨ i = 9 ∧ 1 < b.toNat % 128
      · rw [if_pos hover, if_pos hover]
        rfl
      · have hmore : value + b.toNat % 128 * 2 ^ (7 * i) < 2 ^ (7 * (i + 1)) :=
          Page.add_mul_two_pow_lt hvalue (Nat.mod_lt _ (by norm_num))
        have hword : b.toNat % 128 * 2 ^ (7 * i) < 2 ^ 64 := by
          rcases Nat.lt_or_ge i 9 with hlt | hge
          · have hle : 2 ^ (7 * (i + 1)) ≤ 2 ^ 64 := Nat.pow_le_pow_right (by norm_num) (by omega)
            omega
          · obtain rfl : i = 9 := by omega
            omega
        have hlen : i < cursor.length := by
          by_contra hge
          rw [List.drop_of_length_le (by omega)] at hdrop
          cases hdrop
        have hnext : cursor.drop (i + 1) = unread := by
          rw [← List.tail_drop, hdrop, List.tail_cons]
        rw [if_neg hover, if_neg hover, shiftLeft_eq (by omega) hword]
        -- the digits of the bytes before lie below those of this one
        simp only [Option.bind_eq_bind, Option.bind_some, or_mul_two_pow hvalue,
          and_128_eq_zero_iff]
        split
        next =>
          rw [add_eq (by omega), Option.bind_some, slice_drop hlen, hnext]
          rfl
        next =>
          rw [add_eq (by omega), Option.bind_some]
          exact ih (i + 1) _ hnext hmore

theorem varint_eq : varint = whole Varint.decode := by
  funext bs
  rw [varint, get_bind, lift_bind (varintFrom_eq bs bs 0 0 rfl (by simp)), whole, Varint.decode]
  cases Varint.decodeFrom 0 0 bs <;> rfl

theorem varint32_eq : varint32 = whole Varint.decode32 := by
  simp only [varint32, Varint.decode32, whole_bind, whole_ite, varint_eq]
  rfl

/-! ## Pointers -/

def pointer : Run Bytes Pointer := do
  let offset ← varint
  let size ← varint32
  return ⟨UInt64.ofNat offset, size⟩

theorem pointer_eq : pointer = whole Pointer.decode := by
  simp only [pointer, Pointer.decode, whole_bind, varint_eq, varint32_eq]
  rfl

def pointer? (what : String) : Run Bytes (Option Pointer) := do
  let present ← flag what
  if present then
    let p ← pointer
    return some p
  else return none

theorem pointer?_eq (what : String) : pointer? what = whole (Pointer.decodeOptional what) := by
  simp only [pointer?, Pointer.decodeOptional, whole_bind, whole_ite, flag_eq, pointer_eq]
  rfl

end Columnar.Machine
