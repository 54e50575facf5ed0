import Columnar.Varint
import Mathlib.Data.Nat.Digits.Lemmas
import Mathlib.Tactic.Ring

/-! # What reads as a varint

A varint is read if it ends within ten bytes and its number is a word. It may have more bytes than
the number needs, but none of its kind has fewer than the one that is written. -/

namespace Columnar.Varint

/-- The number that bytes spell, seven bits to the byte, low end first. -/
def spelled (bs : Bytes) : ℕ := Nat.ofDigits 128 (bs.map fun b => b.toNat % 128)

/-- The index of the first byte whose top bit is clear. -/
def lastIndex? (bs : Bytes) : Option ℕ := bs.findIdx? fun b => b.toNat < 128

/-- The bytes begin with a varint of the number, which ends with the byte at index `last`. -/
structure Begins (bs : Bytes) (last n : ℕ) : Prop where
  last_le : last ≤ 9
  lastIndex_eq : lastIndex? bs = some last
  spelled_eq : spelled (bs.take (last + 1)) = n
  lt : n < 2 ^ 64

theorem spelled_cons (b : UInt8) (bs : Bytes) :
    spelled (b :: bs) = b.toNat % 128 + 128 * spelled bs := Nat.ofDigits_cons ..

theorem spelled_lt (bs : Bytes) : spelled bs < 128 ^ bs.length := by
  have hdigits : ∀ d ∈ bs.map fun b => b.toNat % 128, d < 128 := by
    rintro _ hd
    obtain ⟨b, -, rfl⟩ := List.mem_map.mp hd
    exact Nat.mod_lt _ (by norm_num)
  simpa [spelled] using Nat.ofDigits_lt_base_pow_length (by norm_num) hdigits

theorem lastIndex?_cons (b : UInt8) (bs : Bytes) :
    lastIndex? (b :: bs) = if b.toNat < 128 then some 0 else (lastIndex? bs).map (· + 1) := by
  simp [lastIndex?, List.findIdx?_cons]

/-- The tenth byte overflows the word with any bit but its lowest, and no other byte does. -/
theorem fits_iff {index value digit : ℕ} (hvalue : value < 128 ^ index) (hdigit : digit < 128) :
    ¬ (9 < index ∨ index = 9 ∧ 1 < digit) ↔
      index ≤ 9 ∧ value + digit * 128 ^ index < 2 ^ 64 := by
  rcases Nat.lt_trichotomy index 9 with hlow | rfl | hhigh
  · have hpow : 128 ^ (index + 1) ≤ 128 ^ 9 := Nat.pow_le_pow_right (by norm_num) hlow
    have hmul := Nat.mul_le_mul_right (128 ^ index) (show digit ≤ 127 by omega)
    rw [pow_succ] at hpow
    omega
  · omega
  · omega

/-- Reads on from the byte at index `index`, behind bytes that spell `value`. -/
theorem decodeFrom_eq_ok_iff {bs rest : Bytes} {index value n : ℕ}
    (hvalue : value < 128 ^ index) :
    decodeFrom index value bs = .ok (n, rest) ↔
      ∃ last, index + last ≤ 9 ∧ lastIndex? bs = some last ∧
        value + 128 ^ index * spelled (bs.take (last + 1)) = n ∧ n < 2 ^ 64 ∧
        bs.drop (last + 1) = rest := by
  induction bs generalizing index value with
  | nil => simp [decodeFrom, lastIndex?]
  | cons b bs ih =>
      have hdigit : b.toNat % 128 < 128 := Nat.mod_lt _ (by norm_num)
      -- the sum so far stays below `128 ^ index`, so that the word can only overflow at the end
      have hfits := fits_iff hvalue hdigit
      have hnext : value + b.toNat % 128 * 128 ^ index < 128 ^ (index + 1) := by
        have hmul := Nat.mul_le_mul_right (128 ^ index) (show b.toNat % 128 ≤ 127 by omega)
        rw [pow_succ]
        omega
      rw [decodeFrom, lastIndex?_cons]
      by_cases hclear : b.toNat < 128
      · have hone : spelled [b] = b.toNat % 128 := by simp [spelled]
        simp only [hclear, if_true]
        constructor
        · intro h
          split at h
          next => cases h
          next hroom =>
            cases h
            obtain ⟨hindex, hlt⟩ := hfits.mp hroom
            exact ⟨0, hindex, rfl, by simp [hone, Nat.mul_comm], hlt, rfl⟩
        · rintro ⟨last, hindex, hlast, hn, hlt, rfl⟩
          cases hlast
          rw [List.take_succ_cons, List.take_zero, hone, Nat.mul_comm] at hn
          subst hn
          rw [if_neg (hfits.mpr ⟨hindex, hlt⟩)]
          rfl
      · simp only [hclear, if_false]
        have hmore : ∀ last, value + 128 ^ index * spelled ((b :: bs).take (last + 1 + 1)) =
            value + b.toNat % 128 * 128 ^ index
              + 128 ^ (index + 1) * spelled (bs.take (last + 1)) := by
          intro last
          rw [List.take_succ_cons, spelled_cons, pow_succ]
          ring
        constructor
        · intro h
          split at h
          next => cases h
          next =>
            obtain ⟨last, hindex, hlast, hn, hlt, hrest⟩ := (ih hnext).mp h
            exact ⟨last + 1, by omega, by rw [hlast]; rfl, (hmore last).trans hn, hlt, hrest⟩
        · rintro ⟨last, hindex, hlast, hn, hlt, hrest⟩
          obtain ⟨before, hbefore, rfl⟩ := Option.map_eq_some_iff.mp hlast
          rw [if_neg (by omega)]
          exact (ih hnext).mpr
            ⟨before, by omega, hbefore, (hmore before).symm.trans hn, hlt, hrest⟩

theorem decode_eq_ok_iff {bs rest : Bytes} {n : ℕ} :
    decode bs = .ok n rest ↔ ∃ last, Begins bs last n ∧ bs.drop (last + 1) = rest := by
  have hfrom := @decodeFrom_eq_ok_iff bs rest 0 0 n Nat.one_pos
  have hdecode : decode bs = .ok n rest ↔ decodeFrom 0 0 bs = .ok (n, rest) := by
    rw [decode]
    cases decodeFrom 0 0 bs <;> simp [Prod.ext_iff]
  rw [hdecode, hfrom]
  constructor
  · rintro ⟨last, hle, hlast, hn, hlt, hrest⟩
    exact ⟨last, ⟨by omega, hlast, by simpa using hn, hlt⟩, hrest⟩
  · rintro ⟨last, ⟨hle, hlast, hn, hlt⟩, hrest⟩
    exact ⟨last, by omega, hlast, by simpa using hn, hlt, hrest⟩

/-- What is no varint stays unread. -/
theorem decode_eq_error {bs : Bytes} (h : ¬ ∃ last n, Begins bs last n) :
    ∃ cause, decode bs = .error (.corruption cause) bs := by
  cases hdecode : decode bs with
  | ok n rest =>
      obtain ⟨last, hbegins, -⟩ := decode_eq_ok_iff.mp hdecode
      exact absurd ⟨last, n, hbegins⟩ h
  | error e rest =>
      rw [decode] at hdecode
      split at hdecode
      next => cases hdecode
      next cause _ =>
        cases hdecode
        exact ⟨cause, rfl⟩

namespace Begins

variable {bs : Bytes} {last n : ℕ}

theorem decode_eq (h : Begins bs last n) : decode bs = .ok n (bs.drop (last + 1)) :=
  decode_eq_ok_iff.mpr ⟨last, h, rfl⟩

theorem lt_length (h : Begins bs last n) : last < bs.length :=
  (List.findIdx?_eq_some_iff_getElem.mp h.lastIndex_eq).1

theorem lt_pow (h : Begins bs last n) : n < 128 ^ (last + 1) := by
  have hlt := spelled_lt (bs.take (last + 1))
  rwa [h.spelled_eq, List.length_take_of_le h.lt_length] at hlt

theorem size_le (h : Begins bs last n) : size n ≤ last + 1 :=
  (size_le_iff (Nat.succ_pos last)).mpr h.lt_pow

end Begins

/-! ## What is written -/

theorem spelled_encode (n : ℕ) : spelled (encode n) = n := by
  fun_induction encode n with
  | case1 n h =>
      have hbyte : (UInt8.ofNat n).toNat % 128 = n := by
        rw [UInt8.toNat_ofNat']
        omega
      rw [spelled_cons, hbyte]
      rfl
  | case2 n h ih =>
      have hbyte : (UInt8.ofNat (n % 128 + 128)).toNat % 128 = n % 128 := by
        rw [UInt8.toNat_ofNat']
        omega
      rw [spelled_cons, hbyte, ih, Nat.mod_add_div]

theorem lastIndex?_encode (n : ℕ) (rest : Bytes) :
    lastIndex? (encode n ++ rest) = some (size n - 1) := by
  fun_induction encode n with
  | case1 n h =>
      have hclear : (UInt8.ofNat n).toNat < 128 := by
        rw [UInt8.toNat_ofNat']
        omega
      rw [List.singleton_append, lastIndex?_cons, if_pos hclear, size_eq_one h]
  | case2 n h ih =>
      have hset : ¬ (UInt8.ofNat (n % 128 + 128)).toNat < 128 := by
        rw [UInt8.toNat_ofNat']
        omega
      have hsize : size n = 1 + size (n / 128) := size_succ (by omega)
      have hpos := size_pos (n / 128)
      rw [List.cons_append, lastIndex?_cons, if_neg hset, ih, Option.map_some]
      congr 1
      omega

theorem begins_encode {n : ℕ} (h : n < 2 ^ 64) (rest : Bytes) :
    Begins (encode n ++ rest) (size n - 1) n := by
  have hpos := size_pos n
  have hlen : size n - 1 + 1 = (encode n).length := by rw [length_encode, Nat.sub_add_cancel hpos]
  refine ⟨?_, lastIndex?_encode n rest, ?_, h⟩
  · have hten : size n ≤ 10 := (size_le_iff (by norm_num)).mpr (h.trans (by norm_num))
    omega
  · rw [hlen, List.take_left, spelled_encode]

theorem decode_encode_append {n : ℕ} (h : n < 2 ^ 64) (rest : Bytes) :
    decode (encode n ++ rest) = .ok n rest := by
  have hpos := size_pos n
  rw [(begins_encode h rest).decode_eq, Nat.sub_add_cancel hpos, ← length_encode, List.drop_left]

/-- Reading takes the varint that stands in front, and leaves all bytes where they are if there is
none. A word that is written comes back, and no varint that reads as the word is shorter. -/
theorem varint_codec (bs : Bytes) (word : UInt64) (rest : Bytes) :
    (∀ last n, Begins bs last n → decode bs = .ok n (bs.drop (last + 1))) ∧
      ((¬ ∃ last n, Begins bs last n) → ∃ cause, decode bs = .error (.corruption cause) bs) ∧
      decode (encode word.toNat ++ rest) = .ok word.toNat rest ∧
      (encode word.toNat).length = size word.toNat ∧
      ∀ last, Begins bs last word.toNat → size word.toNat ≤ last + 1 :=
  ⟨fun _ _ h => h.decode_eq, decode_eq_error, decode_encode_append word.toNat_lt rest,
    length_encode word.toNat, fun _ h => h.size_le⟩

-- ten bytes for a number of one, and a tenth byte with a bit too many
example : decode (List.replicate 9 128 ++ [0, 7]) = .ok 0 [7] ∧
    decode (List.replicate 9 128 ++ [2]) =
      .error (.corruption .varintOverflow) (List.replicate 9 128 ++ [2]) :=
  ⟨rfl, rfl⟩

end Columnar.Varint
