import Columnar.Proofs.SegmentReading

/-! # Short-key indexes come back

The stored short-key index of a segment reads as the keys of the rows that begin a block. -/

namespace Columnar

open Decoder (Reads)

namespace ShortKeyIndex

/-! ## Keys and offsets -/

/-- Where each key begins, if `start` bytes come before the first. -/
def offsetsFrom (start : ℕ) : List Bytes → List ℕ
  | [] => []
  | key :: keys => start :: offsetsFrom (start + key.length) keys

theorem offsetsFrom_eq (start : ℕ) (keys : List Bytes) : offsetsFrom start keys =
    (List.range keys.length).map fun k => start + (keys.take k).flatten.length := by
  induction keys generalizing start with
  | nil => rfl
  | cons key keys ih =>
      rw [offsetsFrom, ih, List.length_cons, List.range_succ_eq_map, List.map_cons, List.map_map]
      simp [Function.comp_def, Nat.add_assoc]

theorem splitOnto_offsetsFrom (key : Bytes) (keys : List Bytes) (start : ℕ) (done : List Bytes) :
    splitOnto (key ++ keys.flatten) start (offsetsFrom (start + key.length) keys) done =
      done.reverse ++ key :: keys := by
  induction keys generalizing key start done with
  | nil => simp [offsetsFrom, splitOnto]
  | cons key' keys ih =>
      rw [offsetsFrom, splitOnto, Nat.add_sub_cancel_left, List.flatten_cons, List.take_left,
        List.drop_left, ih]
      simp

/-- Cut at the offsets, the joined keys are the keys again. -/
theorem split_offsetsFrom (keys : List Bytes) : split keys.flatten (offsetsFrom 0 keys) = keys := by
  cases keys with
  | nil => rfl
  | cons key keys =>
      have hsplit := splitOnto_offsetsFrom key keys 0 []
      simpa [offsetsFrom, split] using hsplit

theorem misplaced?_offsetsFrom {size position next start : ℕ} {keys : List Bytes}
    (hposition : if position = 0 then start = 0 else next ≤ start)
    (hsize : start + keys.flatten.length ≤ size) :
    misplaced? size position next (offsetsFrom start keys) = none := by
  induction keys generalizing position next start with
  | nil => rfl
  | cons key keys ih =>
      rw [List.flatten_cons, List.length_append] at hsize
      rw [offsetsFrom, misplaced?, if_pos ⟨hposition, by omega⟩]
      exact ih (by rw [if_neg (by omega)]; omega) (by omega)

/-! ## Stored form -/

/-- The stored form of the offsets. -/
theorem flatMap_range_offsets (keys : List Bytes) :
    ((List.range keys.length).flatMap fun k => Bytes.little 4 (keys.take k).flatten.length) =
      (offsetsFrom 0 keys).flatMap (Bytes.little 4) := by
  simp [offsetsFrom_eq, List.flatMap_map]

theorem length_offsetsFrom (start : ℕ) (keys : List Bytes) :
    (offsetsFrom start keys).length = keys.length := by
  simp [offsetsFrom_eq]

theorem offsetsFrom_le {start o : ℕ} {keys : List Bytes} (h : o ∈ offsetsFrom start keys) :
    o ≤ start + keys.flatten.length := by
  rw [offsetsFrom_eq] at h
  obtain ⟨k, -, rfl⟩ := List.mem_map.mp h
  have hjoin := congrArg List.length (congrArg List.flatten (List.take_append_drop k keys))
  rw [List.flatten_append, List.length_append] at hjoin
  omega

theorem reads_offsets {keys : List Bytes} (hlen : keys.flatten.length < 2 ^ 32) :
    Reads (Decoder.times keys.length (Decoder.word 4 "short key offset"))
      ((offsetsFrom 0 keys).flatMap (Bytes.little 4)) (offsetsFrom 0 keys) := by
  rw [← length_offsetsFrom 0 keys]
  apply Decoder.reads_times
  intro o ho
  have hle := offsetsFrom_le ho
  exact Decoder.reads_word (by omega) _

/-- The keys come back, if there is one for each block. -/
theorem parse_stored {segmentId perBlock : UInt32} {numRows : ℕ} {keys : List Bytes}
    (hrows : numRows < 2 ^ 32) (hpos : perBlock.toNat ≠ 0)
    (hcount : keys.length = blocksFor numRows perBlock.toNat)
    (hlen : (stored segmentId perBlock numRows keys).length < 2 ^ 32) :
    parse (stored segmentId perBlock numRows keys) =
      .ok ⟨segmentId, perBlock, UInt32.ofNat numRows, keys.toArray⟩ := by
  let offsets := (offsetsFrom 0 keys).flatMap (Bytes.little 4)
  have hsize : offsets.length = keys.length * 4 := by
    simp [offsets, List.length_flatMap, List.map_const', length_offsetsFrom]
  have hstored : stored segmentId perBlock numRows keys = Bytes.little 4 segmentId.toNat ++
      (Bytes.little 4 perBlock.toNat ++ (Bytes.little 4 keys.length ++ (Bytes.little 4 numRows ++
        (Bytes.little 4 keys.flatten.length ++ (Bytes.little 4 offsets.length ++
          (Bytes.little 4 (crc32c (keys.flatten ++ offsets)).toNat ++
            (keys.flatten ++ offsets))))))) := by
    simp only [stored, flatMap_range_offsets, List.append_assoc, offsets]
  rw [hstored] at hlen ⊢
  simp only [List.length_append, Bytes.length_little] at hlen
  have hnum := Decoder.reads_word32 (UInt32.ofNat numRows) "short key row count"
  rw [UInt32.toNat_ofNat_of_lt' hrows] at hnum
  have hmatch : ¬ (keys.flatten ++ offsets).length ≠ keys.flatten.length + offsets.length := by
    simp
  -- The header, word by word; then the checks; then the keys and where each begins.
  have hdecode : decode (Bytes.little 4 segmentId.toNat ++
      (Bytes.little 4 perBlock.toNat ++ (Bytes.little 4 keys.length ++ (Bytes.little 4 numRows ++
        (Bytes.little 4 keys.flatten.length ++ (Bytes.little 4 offsets.length ++
          (Bytes.little 4 (crc32c (keys.flatten ++ offsets)).toNat ++
            (keys.flatten ++ offsets)))))))) =
      .ok ⟨segmentId, perBlock, UInt32.ofNat numRows, keys.toArray⟩ [] := by
    apply ((Decoder.reads_word32 segmentId _).bind_append _).trans
    apply ((Decoder.reads_word32 perBlock _).bind_append _).trans
    apply ((Decoder.reads_word (n := keys.length) (by omega) _).bind_append _).trans
    apply (hnum.bind_append _).trans
    apply ((Decoder.reads_word (n := keys.flatten.length) (by omega) _).bind_append _).trans
    apply ((Decoder.reads_word (n := offsets.length) (by omega) _).bind_append _).trans
    apply ((Decoder.reads_word32 (crc32c (keys.flatten ++ offsets)) _).bind_append _).trans
    apply (get_bind _ _).trans
    rw [if_neg hmatch]
    dsimp only
    rw [if_neg (not_not.mpr rfl), if_neg (not_not.mpr hsize), UInt32.toNat_ofNat_of_lt' hrows,
      if_neg (not_or.mpr ⟨hpos, not_not.mpr hcount⟩)]
    apply ((Decoder.reads_take keys.flatten _).bind_append _).trans
    apply (reads_offsets (by omega)).bind_eq.trans
    rw [misplaced?_offsetsFrom (by rfl) (by omega), split_offsetsFrom]
    rfl
  rw [parse, hdecode]

end ShortKeyIndex

namespace SegmentPlan

variable {plan : SegmentPlan} {rows : List Row} {file body : Array UInt8} {footer : Footer}

/-- The short-key index of the rows. -/
def keyIndex (plan : SegmentPlan) (rows : List Row) : ShortKeyIndex where
  segmentId := plan.id
  numRowsPerBlock := UInt32.ofNat plan.options.numRowsPerBlock
  numRows := UInt32.ofNat rows.length
  keys := (plan.blockKeys rows).toArray

theorem toNat_rowsPerBlock (plan : SegmentPlan) :
    (UInt32.ofNat plan.options.numRowsPerBlock).toNat = plan.options.numRowsPerBlock :=
  UInt32.toNat_ofNat_of_lt plan.block_lt

/-- A finished segment gives its short-key index. -/
theorem Lies.shortKeys_eq_ok [Lz4.Compressor] (h : plan.Lies rows body footer)
    (hfile : Segment.Sealed file body footer.encode) :
    (Segment.mk (.memory file) footer).shortKeys = .ok (some (plan.keyIndex rows)) := by
  obtain ⟨p, hp, hstored⟩ := h.shortKeys
  have hread := (hstored.append (footer.encode ++ Footer.trailer footer.encode)).read
  rw [← hfile.file_eq] at hread
  have hpos : (UInt32.ofNat plan.options.numRowsPerBlock).toNat ≠ 0 := by
    rw [plan.toNat_rowsPerBlock]
    exact plan.block_pos.ne'
  have hparse := ShortKeyIndex.parse_stored h.rows_lt hpos
    (by rw [blockKeys, List.length_map, List.length_range, plan.toNat_rowsPerBlock])
    hstored.length_lt
  have hrows : (UInt32.ofNat rows.length).toNat = (Segment.mk (.memory file) footer).numRows := by
    rw [h.numRows_eq]
    exact UInt32.toNat_ofNat_of_lt h.rows_lt
  rw [Segment.shortKeys, hp]
  refine bind_of_eq_ok hread (bind_of_eq_ok hparse ?_)
  rw [if_neg (not_not.mpr hrows)]
  rfl

end SegmentPlan

end Columnar
