import Columnar.Proofs.RowAtomicity

/-! # What the header of a short-key index counts

The header counts the keys and the bytes behind it in words of 32 bits. A key is refused if it would
begin behind 4 GiB, but the last one may end there, and keys without bytes are never refused; the
counts of such an index are cut to their low bits. -/

namespace Columnar

namespace ShortKeyDraft

/-! ## Words of the header -/

/-- The word at index `i`. -/
def headerWord (header : Bytes) (i : ℕ) : ℕ := Bytes.toNat ((header.drop (4 * i)).take 4)

theorem headerWord_flatMap {words : List ℕ} {i n : ℕ} (h : words[i]? = some n) :
    headerWord (words.flatMap (Bytes.little 4)) i = n % 2 ^ 32 := by
  induction words generalizing i with
  | nil => cases h
  | cons word words ih =>
      rw [headerWord, List.flatMap_cons]
      cases i with
      | zero =>
          cases h
          rw [Nat.mul_zero, List.drop_zero, List.take_left' (Bytes.length_little 4 n),
            Bytes.toNat_little, show 256 ^ 4 = 2 ^ 32 by norm_num]
      | succ i =>
          have hskip : 4 * (i + 1) = (Bytes.little 4 word).length + 4 * i := by
            rw [Bytes.length_little]
            omega
          rw [hskip, List.drop_append, List.drop_eq_nil_of_le (by omega), List.nil_append,
            Nat.add_sub_cancel_left]
          exact ih h

/-- The header counts `items` keys, the bytes of the keys and those of the offsets. -/
structure Counts (slices : ShortKeySlices) (items : ℕ) : Prop where
  numItems : headerWord slices.header 2 = items
  keyBytes : headerWord slices.header 4 = slices.keys.length
  offsetBytes : headerWord slices.header 5 = slices.offsets.length

/-! ## Keys that are added -/

theorem addAll_cons (key : Bytes) (keys : List Bytes) (d : ShortKeyDraft) :
    addAll (key :: keys) d = match add key d with
      | .ok _ d => addAll keys d
      | .error e d => .error e d := rfl

/-- A draft that gathered keys and is not finalized. -/
structure Gathered (keys : List Bytes) (d : ShortKeyDraft) : Prop where
  keyBytes : d.keyBytes.data.toList = keys.flatten
  numItems : d.numItems = keys.length
  finalized : d.finalized = false

namespace Gathered

variable {before keys : List Bytes} {d : ShortKeyDraft} {numRows : ℕ}

theorem fresh (id perBlock : UInt32) :
    Gathered [] { segmentId := id, numRowsPerBlock := perBlock } := ⟨rfl, rfl, rfl⟩

theorem size_keyBytes (h : Gathered keys d) : d.keyBytes.size = keys.flatten.length := by
  rw [ByteArray.size, ← Array.length_toList, h.keyBytes]

theorem push (h : Gathered keys d) (key : Bytes) : Gathered (keys ++ [key]) (d.push key) where
  keyBytes := by simp [ShortKeyDraft.push, pushWith, h.keyBytes]
  numItems := by
    have hitems := h.numItems
    rw [ShortKeyDraft.numItems] at hitems
    simp [ShortKeyDraft.push, pushWith, ShortKeyDraft.numItems, hitems]
  finalized := h.finalized

/-- The key is refused if those before it have 4 GiB, whatever its own length is. -/
theorem add_eq (h : Gathered keys d) (key : Bytes) :
    add key d = if 2 ^ 32 ≤ keys.flatten.length then .error (.unsupported .shortKeyBytes) d
      else .ok () (d.push key) := by
  rw [add, refusal?, h.finalized, if_neg Bool.false_ne_true, h.size_keyBytes]
  by_cases hfull : 2 ^ 32 ≤ keys.flatten.length
  · rw [if_pos hfull, if_pos hfull]
  · rw [if_neg hfull, if_neg hfull]

/-- Keys are added up to the first that begins behind 4 GiB. -/
theorem addAll_cases (h : Gathered before d) (keys : List Bytes) :
    (∃ d', addAll keys d = .ok () d' ∧ Gathered (before ++ keys) d' ∧
        ∀ i < keys.length, (before ++ keys.take i).flatten.length < 2 ^ 32) ∨
      ∃ d', addAll keys d = .error (.unsupported .shortKeyBytes) d' ∧
        ∃ i < keys.length, 2 ^ 32 ≤ (before ++ keys.take i).flatten.length := by
  induction keys generalizing before d with
  | nil => exact .inl ⟨d, rfl, by rwa [List.append_nil], fun i hi => absurd hi (Nat.not_lt_zero i)⟩
  | cons key keys ih =>
      rw [addAll_cons, h.add_eq]
      by_cases hfull : 2 ^ 32 ≤ before.flatten.length
      · rw [if_pos hfull]
        exact .inr ⟨d, rfl, 0, Nat.succ_pos _, by rwa [List.take_zero, List.append_nil]⟩
      · rw [if_neg hfull]
        have hnext : ∀ i, before ++ (key :: keys).take (i + 1) =
            before ++ [key] ++ keys.take i := fun i => by
          rw [List.take_succ_cons, ← List.append_cons]
        rcases ih (h.push key) with ⟨d', hrun, hgathered, hroom⟩ | ⟨d', hrun, i, hi, hlong⟩
        · refine .inl ⟨d', hrun, by rwa [List.append_cons], fun i hi => ?_⟩
          cases i with
          | zero => rw [List.take_zero, List.append_nil]; omega
          | succ i =>
              rw [hnext]
              exact hroom i (Nat.lt_of_succ_lt_succ hi)
        · exact .inr ⟨d', hrun, i + 1, Nat.succ_lt_succ hi, by rwa [hnext]⟩

theorem addAll_eq_ok (h : Gathered before d)
    (hroom : ∀ i < keys.length, (before ++ keys.take i).flatten.length < 2 ^ 32) :
    ∃ d', addAll keys d = .ok () d' ∧ Gathered (before ++ keys) d' := by
  rcases h.addAll_cases keys with ⟨d', hrun, hgathered, -⟩ | ⟨d', -, i, hi, hlong⟩
  · exact ⟨d', hrun, hgathered⟩
  · exact absurd (hroom i hi) (Nat.not_lt.mpr hlong)

/-- What is stored of the keys, and the low bits of the counts. -/
theorem finalize_eq_ok (h : Gathered keys d) (hrows : numRows < 2 ^ 32) :
    ∃ slices d', finalize numRows d = .ok slices d' ∧ slices.keys = keys.flatten ∧
      slices.offsets.length = 4 * keys.length ∧
      headerWord slices.header 2 = keys.length % 2 ^ 32 ∧
      headerWord slices.header 4 = keys.flatten.length % 2 ^ 32 ∧
      headerWord slices.header 5 = 4 * keys.length % 2 ^ 32 := by
  let offsets := d.offsets.toList.flatMap fun o => Bytes.little 4 o.toNat
  have hoffsets : offsets.length = 4 * keys.length := by
    have hitems := h.numItems
    rw [ShortKeyDraft.numItems] at hitems
    simp [offsets, List.length_flatMap, List.map_const', hitems, Nat.mul_comm]
  let words := [d.segmentId.toNat, d.numRowsPerBlock.toNat, d.numItems, numRows,
    d.keyBytes.data.toList.length, offsets.length,
    (crc32c (d.keyBytes.data.toList ++ offsets)).toNat]
  have hrun : finalize numRows d =
      .ok { header := words.flatMap (Bytes.little 4), keys := d.keyBytes.data.toList, offsets }
        { d with finalized := true, keyBytes := .empty } := by
    rw [finalize, get_bind, h.finalized, if_neg Bool.false_ne_true]
    dsimp only
    rw [set_bind, if_neg (Nat.not_le.mpr hrows)]
    simp only [words, List.flatMap_cons, List.flatMap_nil, List.append_nil, ← List.append_assoc]
    rfl
  refine ⟨_, _, hrun, h.keyBytes, hoffsets, ?_, ?_, ?_⟩
  · rw [headerWord_flatMap (n := d.numItems) rfl, h.numItems]
  · rw [headerWord_flatMap (n := d.keyBytes.data.toList.length) rfl, h.keyBytes]
  · rw [headerWord_flatMap (n := offsets.length) rfl, hoffsets]

theorem finalize_eq_error (h : Gathered keys d) (hrows : 2 ^ 32 ≤ numRows) :
    ∃ d', finalize numRows d = .error (.unsupported (.rows numRows)) d' := by
  rw [finalize, get_bind, h.finalized, if_neg Bool.false_ne_true]
  dsimp only
  rw [set_bind, if_pos hrows]
  exact ⟨_, rfl⟩

/-- The draft is finalized if its rows can be counted, and the counts of the header are right if the
bytes of the keys and of the offsets can be counted as well. -/
theorem counts_iff (h : Gathered keys d) (numRows : ℕ) :
    ((∃ e d', finalize numRows d = .error e d') ↔ 2 ^ 32 ≤ numRows) ∧
      ∀ slices d', finalize numRows d = .ok slices d' →
        slices.keys = keys.flatten ∧ slices.offsets.length = 4 * keys.length ∧
          (Counts slices keys.length ↔
            slices.keys.length < 2 ^ 32 ∧ slices.offsets.length < 2 ^ 32) := by
  by_cases hrows : 2 ^ 32 ≤ numRows
  · obtain ⟨d', hfinalize⟩ := h.finalize_eq_error hrows
    rw [hfinalize]
    exact ⟨iff_of_true ⟨_, _, rfl⟩ hrows, fun _ _ hok => nomatch hok⟩
  · obtain ⟨slices, d', hfinalize, hkeys, hoffsets, hitems, hkeyBytes, hoffsetBytes⟩ :=
      h.finalize_eq_ok (Nat.not_le.mp hrows)
    rw [hfinalize]
    refine ⟨iff_of_false (fun ⟨_, _, herror⟩ => nomatch herror) hrows, ?_⟩
    rintro _ _ ⟨⟩
    refine ⟨hkeys, hoffsets, fun hcounts => ⟨?_, ?_⟩, fun ⟨hkeysFit, hoffsetsFit⟩ => ?_⟩
    · rw [← hcounts.keyBytes, hkeyBytes]
      exact Nat.mod_lt _ (by norm_num)
    · rw [← hcounts.offsetBytes, hoffsetBytes]
      exact Nat.mod_lt _ (by norm_num)
    · rw [hkeys] at hkeysFit
      rw [hoffsets] at hoffsetsFit
      -- an offset has four bytes, so that the keys can be counted if the offsets can
      exact ⟨hitems.trans (Nat.mod_eq_of_lt (by omega)),
        by rw [hkeyBytes, Nat.mod_eq_of_lt hkeysFit, hkeys],
        by rw [hoffsetBytes, Nat.mod_eq_of_lt hoffsetsFit, hoffsets]⟩

end Gathered

/-! ## The counts -/

/-- Keys are refused if one of them begins behind 4 GiB, and a draft is finalized if its rows can be
counted. The counts of keys and bytes in the header are then right if and only if they all fit. -/
theorem short_key_header_counts_iff (id perBlock : UInt32) (keys : List Bytes) (numRows : ℕ) :
    let added := addAll keys { segmentId := id, numRowsPerBlock := perBlock }
    ((∃ e d, added = .error e d) ↔ ∃ i < keys.length, 2 ^ 32 ≤ (keys.take i).flatten.length) ∧
      ∀ d, added = .ok () d →
        ((∃ e d', finalize numRows d = .error e d') ↔ 2 ^ 32 ≤ numRows) ∧
          ∀ slices d', finalize numRows d = .ok slices d' →
            slices.keys = keys.flatten ∧ slices.offsets.length = 4 * keys.length ∧
              (Counts slices keys.length ↔
                slices.keys.length < 2 ^ 32 ∧ slices.offsets.length < 2 ^ 32) := by
  intro added
  rcases (Gathered.fresh id perBlock).addAll_cases keys with
    ⟨d, hrun, hgathered, hroom⟩ | ⟨d, hrun, i, hi, hlong⟩
  · have hadded : added = .ok () d := hrun
    simp only [List.nil_append] at hgathered hroom
    rw [hadded]
    refine ⟨iff_of_false (fun ⟨_, _, h⟩ => nomatch h) fun ⟨i, hi, hlong⟩ =>
      absurd (hroom i hi) (Nat.not_lt.mpr hlong), ?_⟩
    rintro _ ⟨⟩
    exact hgathered.counts_iff numRows
  · have hadded : added = .error (.unsupported .shortKeyBytes) d := hrun
    rw [List.nil_append] at hlong
    rw [hadded]
    exact ⟨iff_of_true ⟨_, _, rfl⟩ ⟨i, hi, hlong⟩, fun _ h => nomatch h⟩

open SegmentWriter (nameRows nameSchema length_keys_nameRows length_keys_take_nameRows)

/-- The key of the last name may end behind 4 GiB. -/
theorem addAll_nameRows {n : ℕ} (id perBlock : UInt32) (h : 4099 * n + 7 < 2 ^ 32) :
    ∃ d, addAll ((nameRows (n + 1)).map nameSchema.shortKey)
        { segmentId := id, numRowsPerBlock := perBlock } = .ok () d ∧
      Gathered ((nameRows (n + 1)).map nameSchema.shortKey) d := by
  refine (Gathered.fresh id perBlock).addAll_eq_ok fun i hi => ?_
  rw [List.length_map] at hi
  rw [List.nil_append, ← List.map_take]
  exact (length_keys_take_nameRows hi).trans_lt h

/-- Keys without bytes all begin where the first one does. -/
theorem addAll_empty (n : ℕ) (id perBlock : UInt32) :
    ∃ d, addAll (List.replicate n []) { segmentId := id, numRowsPerBlock := perBlock } =
        .ok () d ∧ Gathered (List.replicate n []) d := by
  refine (Gathered.fresh id perBlock).addAll_eq_ok fun i _ => ?_
  rw [List.nil_append, List.take_replicate, List.flatten_replicate_nil]
  norm_num

/-- The keys of names are all taken and have 1802 bytes more than 4 GiB, of which the header counts
the 1802. Keys without bytes are all taken too, and where the offsets have 4 GiB it counts none. -/
theorem short_key_header_wraps :
    (∃ d slices d', addAll ((nameRows 1047809).map nameSchema.shortKey)
          { segmentId := 0, numRowsPerBlock := 1 } = .ok () d ∧
        finalize 1047811 d = .ok slices d' ∧ slices.keys.length = 2 ^ 32 + 1802 ∧
        headerWord slices.header 4 = 1802) ∧
      ∃ d slices d', addAll (List.replicate (2 ^ 30) [])
          { segmentId := 0, numRowsPerBlock := 1 } = .ok () d ∧
        finalize (2 ^ 30) d = .ok slices d' ∧ slices.offsets.length = 2 ^ 32 ∧
        headerWord slices.header 5 = 0 := by
  constructor
  · obtain ⟨d, hrun, hgathered⟩ := addAll_nameRows (n := 1047808) 0 1 (by norm_num)
    obtain ⟨slices, d', hfinalize, hstored, -, -, hcount, -⟩ :=
      hgathered.finalize_eq_ok (show 1047811 < 2 ^ 32 by norm_num)
    rw [← hstored] at hcount
    have hlen : slices.keys.length = 2 ^ 32 + 1802 := by
      rw [hstored, length_keys_nameRows]
      norm_num
    exact ⟨d, slices, d', hrun, hfinalize, hlen, by rw [hcount, hlen]; norm_num⟩
  · obtain ⟨d, hrun, hgathered⟩ := addAll_empty (2 ^ 30) 0 1
    obtain ⟨slices, d', hfinalize, -, hoffsets, -, -, hcount⟩ :=
      hgathered.finalize_eq_ok (show 2 ^ 30 < 2 ^ 32 by norm_num)
    rw [List.length_replicate] at hoffsets hcount
    exact ⟨d, slices, d', hrun, hfinalize, hoffsets, hcount⟩

end ShortKeyDraft

end Columnar
