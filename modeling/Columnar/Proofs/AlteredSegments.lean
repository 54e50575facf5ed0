import Columnar.Proofs.AlteredColumns
import Columnar.Proofs.SegmentRoundTrip
import Columnar.Proofs.TruncatedSegments

/-! # Segments with an altered byte

A file with one byte that is another than the one that was written shows the same rows, or is found
out: in the footer when it is opened, elsewhere not later than where the rows of the byte are read.
Only the length of the footer has nothing to tell that it is right. -/

namespace Columnar

/-! ## The end of the file -/

namespace Footer

theorem length_eq_of_trailer {xs ys : Bytes} (hx : xs.length < 2 ^ 32) (hy : ys.length < 2 ^ 32)
    (h : (trailer xs).take 4 = (trailer ys).take 4) : xs.length = ys.length := by
  have htake : ∀ bytes : Bytes, (trailer bytes).take 4 = Bytes.little 4 bytes.length := by
    intro bytes
    rw [trailer, List.append_assoc, List.take_left' (Bytes.length_little _ _)]
  rw [htake, htake] at h
  rw [← Bytes.toNat_little_of_lt (k := 4) hx, h, Bytes.toNat_little_of_lt hy]

theorem crc32c_eq_of_trailer {xs ys : Bytes} (h : trailer xs = trailer ys) :
    crc32c xs = crc32c ys := by
  have hword : ∀ bytes : Bytes, ((trailer bytes).drop 4).take 4 =
      Bytes.little 4 (crc32c bytes).toNat := by
    intro bytes
    rw [trailer, List.append_assoc, List.drop_left' (Bytes.length_little _ _),
      List.take_left' (Bytes.length_little _ _)]
  have hsame := congrArg (fun bytes => Bytes.toNat ((bytes.drop 4).take 4)) h
  simp only [hword] at hsame
  rw [Bytes.toNat_little_of_lt (crc32c xs).toNat_lt,
    Bytes.toNat_little_of_lt (crc32c ys).toNat_lt] at hsame
  exact UInt32.toNat_inj.mp hsame

end Footer

namespace Segment

variable {file body : Array UInt8} {bytes : Bytes} {i : ℕ} {b : UInt8}

/-- If a byte of the footer is altered, the trailer is the one that was written, but not that of the
footer that stands before it. -/
theorem Sealed.not_sealed_set_footer (h : Sealed file body bytes) (hi : i < file.size)
    (hb : file[i] ≠ b) (hbody : body.size ≤ i) (hin : i < body.size + bytes.length)
    {body' : Array UInt8} {bytes' : Bytes} : ¬ Sealed (file.set i b) body' bytes' := by
  intro h'
  have hle : body.toList.length ≤ i := by simpa using hbody
  have hfront : i < (body.toList ++ bytes).length := by simpa using hin
  have hk : i - body.toList.length < bytes.length := by
    rw [Array.length_toList]
    omega
  have hset := h'.toList_eq
  rw [Array.toList_set, h.toList_eq, List.set_append_left _ _ hfront,
    List.set_append_right _ _ hle] at hset
  obtain ⟨hparts, htrailer⟩ := List.append_inj' hset (by simp)
  have hlen := Footer.length_eq_of_trailer h.bytes_lt h'.bytes_lt (congrArg (·.take 4) htrailer)
  obtain ⟨-, hbytes⟩ := List.append_inj' hparts (by simpa using hlen)
  have hbyte : file.toList[i]? = some file[i] := by
    rw [Array.getElem?_toList, Array.getElem?_eq_getElem hi]
  rw [h.toList_eq, List.getElem?_append_left hfront, List.getElem?_append_right hle,
    List.getElem?_eq_getElem hk] at hbyte
  refine crc32c_set_ne (b := b) hk ?_ (hbytes ▸ (Footer.crc32c_eq_of_trailer htrailer).symm)
  rwa [Option.some.inj hbyte]

/-- If a byte behind the length of the footer is altered, the footer is the one that was written,
but its trailer is not. -/
theorem Sealed.not_sealed_set_trailer (h : Sealed file body bytes) (hi : i < file.size)
    (hb : file[i] ≠ b) (hbehind : body.size + bytes.length + 4 ≤ i)
    {body' : Array UInt8} {bytes' : Bytes} : ¬ Sealed (file.set i b) body' bytes' := by
  intro h'
  have hfront : (body.toList ++ bytes).length = body.size + bytes.length := by simp
  have hle : (body.toList ++ bytes).length ≤ i := by omega
  have hset := h'.toList_eq
  rw [Array.toList_set, h.toList_eq, List.set_append_right _ _ hle] at hset
  obtain ⟨hparts, htrailer⟩ := List.append_inj' hset (by simp)
  -- the stored length is untouched, so both footers are of one length
  have hlen := congrArg (·.take 4) htrailer
  have hfour : 4 ≤ i - (body.toList ++ bytes).length := by omega
  simp only [List.take_set] at hlen
  rw [List.set_eq_of_length_le ((List.length_take_le _ _).trans hfour)] at hlen
  obtain ⟨-, rfl⟩ := List.append_inj' hparts
    (Footer.length_eq_of_trailer h.bytes_lt h'.bytes_lt hlen)
  have hk : i - (body.toList ++ bytes).length < (Footer.trailer bytes).length := by
    have hsize := h.size_eq
    rw [Footer.length_trailer]
    omega
  have hbyte : file.toList[i]? = some file[i] := by
    rw [Array.getElem?_toList, Array.getElem?_eq_getElem hi]
  rw [h.toList_eq, List.getElem?_append_right hle] at hbyte
  have hsame := congrArg (·[i - (body.toList ++ bytes).length]?) htrailer
  simp only [List.getElem?_set_self hk, hbyte] at hsame
  exact hb (Option.some.inj hsame).symm

/-- The end of a file with an altered byte does not pass for that of a segment, if the byte is in
the footer or in the trailer but not in the length of the footer. -/
theorem Sealed.not_sealed_set (h : Sealed file body bytes) (hi : i < file.size) (hb : file[i] ≠ b)
    (hfooter : body.size ≤ i) (hlength : ¬ (file.size - 12 ≤ i ∧ i < file.size - 8))
    {body' : Array UInt8} {bytes' : Bytes} : ¬ Sealed (file.set i b) body' bytes' := by
  have hsize : file.size = body.size + bytes.length + 12 := h.size_eq
  rcases Nat.lt_or_ge i (body.size + bytes.length) with hin | hbehind
  · exact h.not_sealed_set_footer hi hb hfooter hin
  · exact h.not_sealed_set_trailer hi hb (by omega)

/-- So the file is refused. -/
theorem Sealed.open_set (h : Sealed file body bytes) (hi : i < file.size) (hb : file[i] ≠ b)
    (hfooter : body.size ≤ i) (hlength : ¬ (file.size - 12 ≤ i ∧ i < file.size - 8)) :
    ∃ e, Segment.open (.memory (file.set i b)) = .error e ∧ e.isCorruption = true := by
  rcases sealed_or_isCorruption (file.set i b) with ⟨body', bytes', h'⟩ | herror
  · exact absurd h' (h.not_sealed_set hi hb hfooter hlength)
  · exact herror

/-- A byte before the footer leaves the end of the file as it was. -/
theorem Sealed.set (h : Sealed file body bytes) (hi : i < file.size) (hbody : i < body.size) :
    Sealed (file.set i b) (body.set i b) bytes where
  file_eq := by
    apply Array.ext'
    rw [Array.toList_set, h.file_eq, Array.toList_appendList, Array.toList_appendList,
      Array.toList_set, List.set_append_left _ _ (by simpa using hbody)]
  bytes_lt := h.bytes_lt

end Segment

/-! ## The rows -/

theorem forall₂_range {α : Type} (xs : List α) :
    List.Forall₂ (fun x k => xs[k]? = some x) xs (List.range xs.length) := by
  rw [List.forall₂_iff_get]
  exact ⟨List.length_range.symm, fun k hx hk => by simp⟩

namespace SegmentPlan

variable [Lz4.Compressor] [Lz4.LawfulCompressor] {plan : SegmentPlan} {rows : List Row}
  {file body : Array UInt8} {footer : Footer} {options : ReadOptions} {i : ℕ} {b : UInt8}

theorem Lies.honest_column (h : plan.Lies rows body footer)
    (hfile : Segment.Sealed file body footer.encode) (hfit : plan.Fits rows)
    (hi : i < file.size) (hb : file[i] ≠ b)
    (hverify : options.verifyChecksums = true) {k : ℕ} (hk : k < footer.columns.length) :
    Honest ((Segment.mk (.memory (file.set i b)) footer).column k options) fun c =>
      ∀ cells, (RowBlock.columnsOf plan.schema.columns.length rows)[k]? = some cells →
        c.Shows (·.isCorruption = true) cells := by
  have hm := List.getElem?_eq_getElem hk
  obtain ⟨t, ht, hwritten⟩ := forall₂_getElem? h.columns hm
  have hmem := List.mem_of_getElem? ht
  have hwritten := hwritten.append (footer.encode ++ Footer.trailer footer.encode)
  rw [← hfile.file_eq] at hwritten
  have hopen := hwritten.honest_open hi (h.accepted t hmem) (hfit.column hmem) hverify hb
  rw [length_cells_of_mem_tasksFrom hmem, ← h.numRows_eq] at hopen
  rw [Segment.column, hm]
  refine hopen.mono fun c _ hshows cells hcells => ?_
  rw [← map_cells_tasksFrom plan 0, List.getElem?_map, ← tasks, ht] at hcells
  exact Option.some.inj hcells ▸ hshows

/-- If the footer is still the one that was written, the columns together show the rows, or the
bytes are put in doubt. -/
theorem Lies.honest_rows (h : plan.Lies rows body footer)
    (hfile : Segment.Sealed file body footer.encode) (hfit : plan.Fits rows)
    (hi : i < file.size) (hb : file[i] ≠ b)
    (hverify : options.verifyChecksums = true) :
    Honest ((Segment.mk (.memory (file.set i b)) footer).rows options) fun scan =>
      ∃ columns, RowScan.Shows (·.isCorruption = true) plan.schema.columns.length rows columns 0
        scan := by
  have hcolumns := Honest.mapM fun k (hk : k ∈ List.range footer.columns.length) =>
    h.honest_column hfile hfit hi hb hverify (List.mem_range.mp hk)
  rw [Segment.rows, h.numRows_eq]
  refine hcolumns.bind fun columns _ hall => .ok ⟨columns, RowScan.shows_scan ?_⟩
  have hlen : (RowBlock.columnsOf plan.schema.columns.length rows).length =
      footer.columns.length := by
    rw [← h.columns.length_eq, tasks, length_tasksFrom, RowBlock.length_columnsOf]
  have hrange := forall₂_range (RowBlock.columnsOf plan.schema.columns.length rows)
  rw [hlen] at hrange
  exact forall₂_comp (fun cells k c hcells hshows => hshows cells hcells) hrange hall

end SegmentPlan

/-- The rows of a segment, from opening the file on: batches with one limit after the other. -/
def Segment.scanned (file : File) (options : ReadOptions) (limits : List ℕ) :
    Except Error (List (BatchStatus × List Row)) := do
  let segment ← Segment.open file
  let scan ← segment.rows options
  match RowScan.drain limits (scan, ⟨[]⟩) with
  | .ok found _ => return found.map fun b => (b.1, b.2.rows)
  | .error e _ => throw e

/-- A byte that is another than the one that was written changes no row, unless it is in the length
of the footer: with checksums verified, a scan gives the rows that were written, cut up by the
limits, or fails at some step with an error that puts the bytes in doubt. -/
theorem altered_byte_detected [Lz4.Compressor] [Lz4.LawfulCompressor] {id : UInt32}
    {schema : Schema} {options : SegmentOptions} {initial file : Array UInt8} {rows : List Row}
    (h : SegmentWriter.Writes id schema options initial rows file) (hsize : file.size < 2 ^ 64)
    (hfit : options.compression = .lz4 → options.BodiesFit schema rows)
    {i : ℕ} {b : UInt8} (hi : i < file.size) (hb : file[i] ≠ b)
    (hlength : ¬ (file.size - 12 ≤ i ∧ i < file.size - 8)) {readOptions : ReadOptions}
    (hverify : readOptions.verifyChecksums = true) {limits : List ℕ}
    (hlimits : ∀ limit ∈ limits, 0 < limit) :
    Honest (Segment.scanned (.memory (file.set i b)) readOptions limits) fun found =>
      found = RowScan.batches limits rows ∧ found.flatMap Prod.snd = rows.take limits.sum := by
  obtain ⟨plan, body, footer, rfl, rfl, rfl, hsealed, hlies⟩ := h.lies hsize
  rcases Nat.lt_or_ge i (initial ++ body).size with hbody | hfooter
  · have hopen : Segment.open (.memory (file.set i b)) = .ok ⟨.memory (file.set i b), footer⟩ := by
      refine (hsealed.set hi hbody).open_eq_ok hlies.parse_eq_ok ?_
      rw [Array.size_set]
      exact hlies.keysWithin
    rw [Segment.scanned, hopen]
    refine (hlies.honest_rows hsealed hfit hi hb hverify).bind fun scan _ hshows => ?_
    obtain ⟨columns, hshows⟩ := hshows
    have hwidth := List.length_pos_iff.mpr plan.schema.nonempty
    rcases hshows.drain hwidth hlies.widths hlimits ⟨[]⟩ with
      ⟨found, state, hdrain, hfound⟩ | ⟨e, state, hdrain, hdoubt⟩
    · rw [hdrain]
      refine .ok ⟨hfound, ?_⟩
      rw [hfound, List.drop_zero, RowScan.flatMap_batches]
    · rw [hdrain]
      exact .error hdoubt
  · obtain ⟨e, hopen, hdoubt⟩ := hsealed.open_set hi hb hfooter hlength
    rw [Segment.scanned, hopen]
    exact .error hdoubt

attribute [local instance] Lz4.matcher

/-- Three rows in two pages. The altered byte is in the ordinal index, which then lets the second
page begin at row 1 and is in order still. -/
theorem altered_byte_detected_index :
    let schema : Schema := {
      columns := [{ uniqueId := 1, name := "a", type := .int }]
      shortKeys := 0
      nonempty := by decide
      distinct := by decide
      keysFirst := by decide
      shortKeys_le := by decide }
    let options : SegmentOptions := { maxRowsPerPage := 2, compression := .none }
    let rows : List Row := [[some (.int32 4)], [some (.int32 5)], [some (.int32 6)]]
    ∃ (file : Array UInt8) (hi : 55 < file.size),
      SegmentWriter.Writes 0 schema options #[] rows file ∧ file.size < 2 ^ 64 ∧ file[55] ≠ 1 ∧
      ¬ (file.size - 12 ≤ 55 ∧ 55 < file.size - 8) ∧
      (∀ limit ∈ [2, 2], 0 < limit) ∧
      Honest (Segment.scanned (.memory (file.set 55 1)) {} [2, 2]) fun found =>
        found = [(.read 2, rows.take 2), (.read 1, rows.drop 2)] ∧
          found.flatMap Prod.snd = rows := by
  intro schema options rows
  have hrun : ((SegmentWriter.written? 0 schema options #[] rows).map fun file =>
      (file.size, file[55]?)) = some (143, some 2) := by
    decide +kernel
  obtain ⟨file, hfile, hfound⟩ := Option.map_eq_some_iff.mp hrun
  obtain ⟨hsize, hbyte⟩ := Prod.mk.inj hfound
  obtain ⟨hi, hbyte⟩ := Array.getElem?_eq_some_iff.mp hbyte
  have hlt : file.size < 2 ^ 64 := by omega
  have hb : file[55] ≠ 1 := by
    rw [hbyte]
    decide
  have hlength : ¬ (file.size - 12 ≤ 55 ∧ 55 < file.size - 8) := by omega
  have hlimits : ∀ limit ∈ [2, 2], 0 < limit := by decide
  have hwrites := SegmentWriter.writes_iff.mpr hfile
  exact ⟨file, hi, hwrites, hlt, hb, hlength, hlimits,
    altered_byte_detected hwrites hlt nofun hi hb hlength rfl hlimits⟩

end Columnar
