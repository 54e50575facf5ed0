import Columnar.Lz4.Matcher
import Columnar.Proofs.Lz4RoundTrip

/-! # Matches that are found

The sequences that the search finds cover the data from the start to the last literals. Expanding
them keeps, after each one, exactly the data covered so far. -/

namespace Columnar.Lz4

/-! ## Expanding what was written -/

/-- A length is read back from its half of the token and what goes on behind. -/
theorem length?_lengthTail (n : ℕ) (rest : Bytes) :
    ∃ h, length? (min n 15) (lengthTail n ++ rest) = some (n, ⟨rest, h⟩) := by
  by_cases hn : n < 15
  · have hmin : min n 15 = n := by omega
    have hne : ¬ n = 15 := by omega
    refine ⟨by simp, ?_⟩
    simp [length?, lengthTail, hn, hmin, hne]
  · have hmin : min n 15 = 15 := by omega
    have hlast : (UInt8.ofNat ((n - 15) % 255)).toNat = (n - 15) % 255 := by simp; omega
    have hne : UInt8.ofNat ((n - 15) % 255) ≠ 255 := by
      intro h
      have := congrArg UInt8.toNat h
      rw [hlast] at this
      have : (n - 15) % 255 < 255 := Nat.mod_lt _ (by omega)
      simp_all
    have hsum : 15 + 255 * ((n - 15) / 255) + (n - 15) % 255 = n := by omega
    have htail : lengthTail n ++ rest =
        List.replicate ((n - 15) / 255) 255 ++ UInt8.ofNat ((n - 15) % 255) :: rest := by
      simp [lengthTail, hn]
    obtain ⟨h, hfrom⟩ := lengthFrom_replicate ((n - 15) / 255) hne rest 15
    rw [htail]
    refine ⟨h.le, ?_⟩
    rw [hlast, hsum] at hfrom
    rw [length?, hmin, if_pos rfl, hfrom, Option.map_some]

theorem token_div (literals extra : ℕ) : (token literals extra).toNat / 16 = min literals 15 := by
  simp [token]
  omega

theorem token_mod (literals extra : ℕ) : (token literals extra).toNat % 16 = min extra 15 := by
  simp [token]

/-- What the output is after a sequence. -/
def Sequence.expand (s : Sequence) (out : Array UInt8) : Array UInt8 :=
  copyBack s.offset s.length (out ++ s.literals)

theorem expandOnto_last {capacity : ℕ} {last : Bytes} {out : Array UInt8}
    (hfit : out.size + last.length ≤ capacity) :
    expandOnto capacity (encodeLast last) out = .ok (out ++ last) := by
  obtain ⟨h, hlen⟩ := length?_lengthTail last.length last
  rw [← token_div last.length 0] at hlen
  exact expandOnto_literals hlen hfit

/-- A sequence can be taken back behind an output that its match reaches into. -/
structure Sequence.Fits (s : Sequence) (size : ℕ) : Prop where
  offset_pos : 0 < s.offset
  offset_le : s.offset ≤ size + s.literals.length
  offset_lt : s.offset < 65536
  four_le : 4 ≤ s.length

theorem expandOnto_sequence {capacity : ℕ} {s : Sequence} {out : Array UInt8}
    (hs : s.Fits out.size) (hfit : out.size + s.literals.length + s.length ≤ capacity)
    (rest : Bytes) :
    expandOnto capacity (s.encode ++ rest) out = expandOnto capacity rest (s.expand out) := by
  have hfour := hs.four_le
  set extra := s.length - 4 with hextra
  have hlength : extra + 4 = s.length := by omega
  have hoffset : (UInt8.ofNat s.offset).toNat + 256 * (UInt8.ofNat (s.offset / 256)).toNat
      = s.offset := by
    have hlt := hs.offset_lt
    simp
    omega
  obtain ⟨h, hlen⟩ := length?_lengthTail s.literals.length
    (s.literals ++ (Bytes.little 2 s.offset ++ (lengthTail extra ++ rest)))
  obtain ⟨h', hlen'⟩ := length?_lengthTail extra rest
  rw [← token_div s.literals.length extra] at hlen
  rw [← token_mod s.literals.length extra] at hlen'
  have hblock : s.encode ++ rest = token s.literals.length extra ::
      (lengthTail s.literals.length ++
        (s.literals ++ (Bytes.little 2 s.offset ++ (lengthTail extra ++ rest)))) := by
    simp [Sequence.encode, hextra]
  rw [hblock, Sequence.expand, ← hlength]
  exact expandOnto_match hlen hlen' hoffset hs.offset_pos hs.offset_le (by omega)

/-! ## What the search finds -/

theorem length_slice {data : Array UInt8} {i j : ℕ} (hj : j ≤ data.size) :
    (slice data i j).length = j - i := by
  simp [slice]
  omega

/-- A prefix of the data goes on with the slice behind it. -/
theorem extract_append_slice {data : Array UInt8} {i j : ℕ} (hij : i ≤ j) :
    data.extract 0 i ++ slice data i j = data.extract 0 j := by
  apply Array.ext'
  rw [slice, Array.toList_appendList, ← Array.toList_append, Array.extract_append_extract]
  simp [hij]

/-- The `n` bytes from `i` repeat those `offset` places before, in a way a sequence can tell. -/
structure Repeats (data : Array UInt8) (i offset n : ℕ) : Prop where
  offset_pos : 0 < offset
  offset_le : offset ≤ i
  offset_lt : offset < 65536
  four_le : 4 ≤ n
  inside : i + n ≤ data.size
  agree : ∀ k, k < n → data[i + k]? = data[i + k - offset]?

theorem agreement_spec (data : Array UInt8) (n : ℕ) :
    ∀ i j found, found ≤ agreement data i j n found ∧
      agreement data i j n found ≤ found + n ∧
      ∀ k, k < agreement data i j n found - found → data[i + k]? = data[j + k]? := by
  induction n with
  | zero =>
      intro i j found
      simp [agreement]
  | succ n ih =>
      intro i j found
      by_cases h : data[i]? = data[j]?
      · obtain ⟨hge, hle, hagree⟩ := ih (i + 1) (j + 1) (found + 1)
        rw [agreement, if_pos h]
        refine ⟨by omega, by omega, ?_⟩
        intro k hk
        cases k with
        | zero => simpa using h
        | succ k =>
            have hk' := hagree k (by omega)
            rwa [Nat.add_assoc, Nat.add_comm 1 k, Nat.add_assoc, Nat.add_comm 1 k] at hk'
      · rw [agreement, if_neg h]
        refine ⟨by omega, by omega, ?_⟩
        intro k hk
        omega

theorem matchAt?_repeats {data : Array UInt8} {i : ℕ} {j? : Option ℕ} {m : Match}
    (hi : i + matchMargin ≤ data.size) (h : matchAt? data i j? = some m) :
    Repeats data i m.offset m.length := by
  unfold matchAt? at h
  cases j? with
  | none => simp at h
  | some j =>
      obtain ⟨-, hle, hagree⟩ := agreement_spec data (data.size - lastLiterals - i) i j 0
      simp only at h
      split at h
      next hfour =>
          split at h
          next hj =>
              cases h
              have hback : i - (i - j) = j := by omega
              simp only [matchMargin, lastLiterals, maxOffset] at *
              refine ⟨by omega, by omega, by omega, hfour, by omega, ?_⟩
              intro k hk
              rw [hagree k (by omega), show i + k - (i - j) = j + k by omega]
          next => cases h
      next => cases h

/-- Copying back repeats the data where the data repeats itself. -/
theorem copyBack_extract {data : Array UInt8} {offset : ℕ} (n : ℕ) :
    ∀ i, 0 < offset → offset ≤ i → i + n ≤ data.size →
      (∀ k, k < n → data[i + k]? = data[i + k - offset]?) →
        copyBack offset n (data.extract 0 i) = data.extract 0 (i + n) := by
  induction n with
  | zero => exact fun i _ _ _ _ => rfl
  | succ n ih =>
      intro i hpos hle hin hagree
      have hsize : (data.extract 0 i).size = i := by
        rw [Array.size_extract]
        omega
      have hlast : (data.extract 0 i).getD (i - offset) 0 = data[i] := by
        have hi := hagree 0 (by omega)
        rw [Nat.add_zero, Array.getElem?_eq_getElem (by omega),
          Array.getElem?_eq_getElem (by omega), Option.some_inj] at hi
        rw [hi, Array.getD_eq_getD_getElem?, Array.getElem?_eq_getElem (by omega)]
        simp
      have hpush : (data.extract 0 i).push data[i] = data.extract 0 (i + 1) := by
        rw [Array.push_extract_getElem (by omega)]
        simp
      rw [copyBack, hsize, hlast, hpush, ih (i + 1) hpos (by omega) (by omega)]
      · rw [Nat.add_assoc, Nat.add_comm 1 n]
      · intro k hk
        have hk' := hagree (k + 1) (by omega)
        rwa [← Nat.add_assoc, Nat.add_right_comm] at hk'

/-- Sequences cover the data from one place to another. -/
inductive Covers (data : Array UInt8) : ℕ → List Sequence → ℕ → Prop where
  | nil (i) : i ≤ data.size → Covers data i [] i
  | cons {anchor i stop offset n sequences} : anchor ≤ i → Repeats data i offset n →
      Covers data (i + n) sequences stop →
      Covers data anchor (⟨slice data anchor i, offset, n⟩ :: sequences) stop

theorem Covers.le {data : Array UInt8} {i j : ℕ} {sequences : List Sequence}
    (h : Covers data i sequences j) : i ≤ j ∧ j ≤ data.size := by
  induction h with
  | nil i hi => exact ⟨Nat.le_refl i, hi⟩
  | cons hle _ _ ih => omega

theorem Covers.append {data : Array UInt8} {i j k : ℕ} {xs ys : List Sequence}
    (hx : Covers data i xs j) (hy : Covers data j ys k) : Covers data i (xs ++ ys) k := by
  induction hx with
  | nil => exact hy
  | cons hle hrep _ ih => exact .cons hle hrep (ih hy)

theorem searchOnto_covers (data : Array UInt8) (seen : Std.HashMap ℕ ℕ) (anchor i : ℕ)
    (done : List Sequence) :
    anchor ≤ i → Covers data 0 done.reverse anchor →
      Covers data 0 (searchOnto data seen anchor i done).1
        (searchOnto data seen anchor i done).2 := by
  fun_induction searchOnto data seen anchor i done with
  | case1 seen anchor i done here key seen' offset n long hmatch ih =>
      intro hle hdone
      apply ih (Nat.le_refl _)
      have hrep := matchAt?_repeats here hmatch
      rw [List.reverse_cons]
      exact hdone.append (.cons hle hrep (.nil _ hrep.inside))
  | case2 seen anchor i done here key seen' hmatch ih =>
      intro hle hdone
      exact ih (by omega) hdone
  | case3 seen anchor i done here =>
      intro hle hdone
      exact hdone

/-- Expanding sequences that cover the data from `i` goes on from the data before `i`. -/
theorem Covers.expandOnto {data : Array UInt8} {i j : ℕ} {sequences : List Sequence}
    (h : Covers data i sequences j) (rest : Bytes) :
    Lz4.expandOnto data.size (sequences.flatMap Sequence.encode ++ rest) (data.extract 0 i) =
      Lz4.expandOnto data.size rest (data.extract 0 j) := by
  induction h with
  | nil => rfl
  | @cons anchor i stop offset n sequences hle hrep _ ih =>
      have hin := hrep.inside
      have hsize : (data.extract 0 anchor).size = anchor := by
        rw [Array.size_extract]
        omega
      have hlen : (slice data anchor i).length = i - anchor := length_slice (by omega)
      have hstep : Sequence.expand ⟨slice data anchor i, offset, n⟩ (data.extract 0 anchor) =
          data.extract 0 (i + n) := by
        rw [Sequence.expand, extract_append_slice hle]
        exact copyBack_extract n i hrep.offset_pos hrep.offset_le hin hrep.agree
      rw [List.flatMap_cons, List.append_assoc, expandOnto_sequence, hstep, ih]
      · have hback := hrep.offset_le
        refine ⟨hrep.offset_pos, ?_, hrep.offset_lt, hrep.four_le⟩
        simp only [hsize, hlen]
        omega
      · simp only [hsize, hlen]
        omega

/-- A compressed block expands to exactly the data. -/
theorem expand_matcher (data : Bytes) :
    expand data.length (matcher.compress data) = .ok data := by
  have hcovers := searchOnto_covers data.toArray {} 0 0 [] (Nat.le_refl 0)
    (.nil 0 (Nat.zero_le _))
  unfold matcher encode expand
  set found := searchOnto data.toArray {} 0 0 []
  obtain ⟨-, hstop⟩ := hcovers.le
  have hsize : (data.toArray.extract 0 found.2).size = found.2 := by
    rw [Array.size_extract]
    omega
  have hall := hcovers.expandOnto (encodeLast (slice data.toArray found.2 data.toArray.size))
  have hlast : Lz4.expandOnto data.toArray.size
      (encodeLast (slice data.toArray found.2 data.toArray.size))
      (data.toArray.extract 0 found.2) = .ok data.toArray := by
    rw [expandOnto_last, extract_append_slice hstop]
    · simp
    · rw [hsize, length_slice (Nat.le_refl _)]
      omega
  rw [hlast] at hall
  simp only [List.size_toArray] at hall ⊢
  rw [show (#[] : Array UInt8) = data.toArray.extract 0 0 by simp, hall]
  rfl

instance lawful_matcher : @LawfulCompressor matcher :=
  @LawfulCompressor.mk matcher fun {data} _ => expand_matcher data

end Columnar.Lz4
