import Columnar.Lz4.Matcher
import Columnar.Proofs.SectionTiling
import Columnar.Proofs.ShortKeySeek

/-! # The short-key index holds the sampled keys

A row has its key in the index if it begins a block, and nothing else is in it. Whatever calls were
refused before, the index of the reopened file is that of the rows that were taken. -/

namespace Columnar

namespace SegmentPlan

variable {plan : SegmentPlan} {rows : List Row}

/-- There is a key for each block, the last one perhaps short of rows. -/
theorem numItems_keyIndex (plan : SegmentPlan) (rows : List Row) :
    (plan.keyIndex rows).numItems =
      (rows.length + plan.options.numRowsPerBlock - 1) / plan.options.numRowsPerBlock := by
  rw [ShortKeyIndex.numItems, keyIndex, List.size_toArray, blockKeys, List.length_map,
    List.length_range, ShortKeyIndex.blocksFor, if_neg plan.block_pos.ne']

theorem blockStart_keyIndex (plan : SegmentPlan) (rows : List Row) (b : ℕ) :
    (plan.keyIndex rows).blockStart b = b * plan.options.numRowsPerBlock := by
  rw [ShortKeyIndex.blockStart, keyIndex, plan.toNat_rowsPerBlock]

/-- The key of a block is that of the row with which it begins. -/
theorem getElem?_keyIndex {b : ℕ} (hb : b < (plan.keyIndex rows).numItems) :
    ∃ row, rows[b * plan.options.numRowsPerBlock]? = some row ∧
      (plan.keyIndex rows).keys[b]? = some (plan.schema.shortKey row) := by
  have hkey := Array.getElem?_eq_getElem hb
  have hlist : (plan.blockKeys rows)[b]? = some (plan.keyIndex rows).keys[b] :=
    List.getElem?_toArray.symm.trans hkey
  obtain ⟨row, hrow, heq⟩ := getElem?_blockKeys hlist
  exact ⟨row, hrow, heq ▸ hkey⟩

end SegmentPlan

/-- The index is that of a segment of these rows: it has the short key of each row that begins a
block of `block` rows, and no other. -/
structure ShortKeyIndex.Samples (x : ShortKeyIndex) (id : UInt32) (schema : Schema) (block : ℕ)
    (rows : List Row) : Prop where
  segmentId : x.segmentId = id
  numRows : x.numRows.toNat = rows.length
  numRowsPerBlock : x.numRowsPerBlock.toNat = block
  numItems : x.numItems = (rows.length + block - 1) / block
  keys : ∀ b < x.numItems, x.blockStart b = b * block ∧
    ∃ row, rows[b * block]? = some row ∧ x.keys[b]? = some (schema.shortKey row)

theorem SegmentPlan.Lies.samples [Lz4.Compressor] {plan : SegmentPlan} {rows : List Row}
    {body : Array UInt8} {footer : Footer} (h : plan.Lies rows body footer) :
    (plan.keyIndex rows).Samples plan.id plan.schema plan.options.numRowsPerBlock rows where
  segmentId := rfl
  numRows := UInt32.toNat_ofNat_of_lt h.rows_lt
  numRowsPerBlock := plan.toNat_rowsPerBlock
  numItems := plan.numItems_keyIndex rows
  keys b hb := ⟨plan.blockStart_keyIndex rows b, getElem?_keyIndex hb⟩

/-- If a writer is finished after any calls, the file opens, and the short-key index in it has
exactly the keys of the rows that begin a block, of all rows that were taken. -/
theorem short_keys_are_samples [Lz4.Compressor] {id : UInt32} {schema : Schema}
    {options : SegmentOptions} {initial : Array UInt8} {calls : List SegmentWriter.Call}
    {w w' : SegmentWriter} {size : ℕ}
    (hcalls : (answers (SegmentWriter.answer initial) calls { id, schema, options }).2 = w)
    (hfinalize : SegmentWriter.finalize w = .ok size w') (hsize : size < 2 ^ 64) :
    let rows := SegmentWriter.Call.taken
      (calls.zip (answers (SegmentWriter.answer initial) calls { id, schema, options }).1)
    ∃ file segment index, w'.output = some (.memory file) ∧
      Segment.open (.memory file) = .ok segment ∧ segment.numRows = rows.length ∧
      segment.shortKeys = .ok (some index) ∧
      index.Samples id schema options.numRowsPerBlock rows := by
  intro rows
  have hreached := SegmentWriter.reached_answers id schema options initial calls
  dsimp only at hreached
  rw [hcalls] at hreached
  obtain ⟨plan, rfl, rfl, rfl, hholds⟩ := hreached.holds_of_finalize hfinalize
  obtain ⟨body, footer, houtput, rfl, hlies⟩ := hholds.finalize hfinalize
  have hlies := hlies hsize
  have hsealed : Segment.Sealed _ (initial ++ body) footer.encode := ⟨rfl, hlies.footer_lt⟩
  exact ⟨_, _, plan.keyIndex rows, houtput, hlies.open_eq_ok hsealed, hlies.numRows_eq,
    hlies.shortKeys_eq_ok hsealed, hlies.samples⟩

attribute [local instance] Lz4.matcher

/-- Two blocks begin with one key, a row between them is refused, and the last block is short. -/
theorem short_keys_are_samples_repeated :
    let schema : Schema := {
      columns := [{ uniqueId := 3, name := "tag", type := .varchar, isKey := true }]
      shortKeys := 1
      nonempty := by decide
      distinct := by decide
      keysFirst := by decide
      shortKeys_le := by decide }
    let options : SegmentOptions := { numRowsPerBlock := 2, maxRowsPerPage := 1 }
    let rows : List Row := [[some (.bytes [])], [none], [some (.bytes [])], [some (.bytes [1, 0])],
      [some (.bytes [7])]]
    let calls : List SegmentWriter.Call := [.init, .append [some (.bytes [])], .append [none],
      .append [], .append [some (.bytes [])], .append [some (.bytes [1, 0])],
      .append [some (.bytes [7])]]
    let run := answers (SegmentWriter.answer #[9]) calls { id := 4, schema, options }
    ∃ w' size, SegmentWriter.finalize run.2 = .ok size w' ∧ size < 2 ^ 64 ∧
      ∃ file segment index, w'.output = some (.memory file) ∧
        Segment.open (.memory file) = .ok segment ∧ segment.numRows = 5 ∧
        segment.shortKeys = .ok (some index) ∧ index.Samples 4 schema 2 rows := by
  intro schema options rows calls run
  have hrun : (outcome? (SegmentWriter.finalize run.2)).any (·.1 < 2 ^ 64) = true := by
    decide +kernel
  have htaken : SegmentWriter.Call.taken (calls.zip run.1) = rows := by
    decide +kernel
  obtain ⟨⟨size, w'⟩, hfinalize, hsize⟩ := (Option.any_eq_true _ _).mp hrun
  have hsize := of_decide_eq_true hsize
  have hfinalize := eq_ok_of_outcome? hfinalize
  obtain ⟨file, segment, index, houtput, hopen, hnum, hkeys, hsamples⟩ :=
    short_keys_are_samples rfl hfinalize hsize
  rw [htaken] at hnum hsamples
  exact ⟨w', size, hfinalize, hsize, file, segment, index, houtput, hopen, hnum, hkeys, hsamples⟩

end Columnar
