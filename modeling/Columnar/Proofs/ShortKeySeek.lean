import Columnar.Lz4.Matcher
import Columnar.Proofs.KeyCuts
import Columnar.Proofs.ShortKeySearch

/-! # Seeking by short key

A search for the short key of a row ends at a block that begins with the row or before it, if keys
are in order as the rows are. -/

namespace Columnar

namespace ShortKeyIndex

/-- If the second of two keys is below the first, a search for the first ends at the second. -/
theorem seekBlock_of_disordered {segmentId perBlock numRows : UInt32} {a b : Bytes}
    (h : compare b a = .lt) : (mk segmentId perBlock numRows #[a, b]).seekBlock a = 1 := by
  have hbound : (mk segmentId perBlock numRows #[a, b]).lowerBound a = 2 := by
    simp [lowerBound, partition, numItems, bisect, h]
  rw [seekBlock, hbound]

end ShortKeyIndex

namespace SegmentPlan

variable {plan : SegmentPlan} {rows : List Row}

/-! ## Blocks in order -/

theorem getElem?_blockKeys {b : ℕ} {key : Bytes} (h : (plan.blockKeys rows)[b]? = some key) :
    ∃ row, rows[b * plan.options.numRowsPerBlock]? = some row ∧ plan.schema.shortKey row = key := by
  rw [blockKeys, List.getElem?_map, Option.map_eq_some_iff] at h
  obtain ⟨b', hb', rfl⟩ := h
  obtain ⟨hlt, hb'⟩ := List.getElem?_eq_some_iff.mp hb'
  rw [List.getElem_range] at hb'
  rw [List.length_range] at hlt
  subst hb'
  have hrow := ShortKeyIndex.mul_lt_of_lt_blocksFor plan.block_pos hlt
  exact ⟨_, List.getElem?_eq_getElem hrow, by rw [List.getElem?_eq_getElem hrow]; rfl⟩

/-- Keys of rows in order, which makes those of the blocks be in order. -/
def KeysAscend (plan : SegmentPlan) (rows : List Row) : Prop :=
  rows.Pairwise fun a b => (compare (plan.schema.shortKey a) (plan.schema.shortKey b)).isLE

theorem KeysAscend.le (h : plan.KeysAscend rows) {i j : ℕ} {a b : Row} (hij : i < j)
    (hi : rows[i]? = some a) (hj : rows[j]? = some b) :
    (compare (plan.schema.shortKey a) (plan.schema.shortKey b)).isLE := by
  obtain ⟨hi', rfl⟩ := List.getElem?_eq_some_iff.mp hi
  obtain ⟨hj', rfl⟩ := List.getElem?_eq_some_iff.mp hj
  exact List.pairwise_iff_getElem.mp h i j hi' hj' hij

theorem KeysAscend.blockKeys (h : plan.KeysAscend rows) :
    (plan.blockKeys rows).Pairwise fun a b => (compare a b).isLE := by
  refine List.pairwise_iff_getElem.mpr fun i j hi hj hij => ?_
  obtain ⟨a, ha, hkey⟩ := getElem?_blockKeys (List.getElem?_eq_getElem hi)
  obtain ⟨b, hb, hkey'⟩ := getElem?_blockKeys (List.getElem?_eq_getElem hj)
  rw [← hkey, ← hkey']
  exact h.le (Nat.mul_lt_mul_of_pos_right hij plan.block_pos) ha hb

/-- The search never skips a row that it looks for. -/
theorem KeysAscend.blockStart_seekBlock_le (h : plan.KeysAscend rows) {i : ℕ} {row : Row}
    (hi : rows[i]? = some row) :
    (plan.keyIndex rows).blockStart ((plan.keyIndex rows).seekBlock (plan.schema.shortKey row)) ≤
      i := by
  let x := plan.keyIndex rows
  let target := plan.schema.shortKey row
  by_contra hbehind
  rw [ShortKeyIndex.blockStart, keyIndex, plan.toNat_rowsPerBlock] at hbehind
  have hstart : i < (x.lowerBound target - 1) * plan.options.numRowsPerBlock :=
    Nat.lt_of_not_le hbehind
  have hblock : x.lowerBound target - 1 < x.lowerBound target := by
    have hne : x.lowerBound target - 1 ≠ 0 := fun hzero => by
      rw [hzero, Nat.zero_mul] at hstart
      omega
    omega
  have hbound : x.lowerBound target ≤ x.keys.size := ShortKeyIndex.partition_le _
  obtain ⟨key, hkey⟩ : ∃ key, x.keys[x.lowerBound target - 1]? = some key :=
    ⟨_, Array.getElem?_eq_getElem (by omega)⟩
  have hbelow := (ShortKeyIndex.compare_eq_lt_iff h.blockKeys hkey).mpr hblock
  have hlist : (plan.blockKeys rows)[x.lowerBound target - 1]? = some key :=
    List.getElem?_toArray.symm.trans hkey
  obtain ⟨first, hfirst, heq⟩ := getElem?_blockKeys hlist
  have hle := h.le hstart hi hfirst
  rw [heq] at hle
  exact Std.OrientedCmp.not_isLE_of_lt hbelow hle

/-! ## Rows in order -/

theorem admits_of_accepted {position : ℕ} {cs : List ColumnSchema}
    (h : ∀ t ∈ plan.tasksFrom position cs rows, t.Accepted) {row : Row} (hrow : row ∈ rows) :
    Schema.Admits cs row := by
  induction cs generalizing position rows row with
  | nil => trivial
  | cons c cs ih =>
      rw [tasksFrom, List.forall_mem_cons] at h
      refine ⟨fun v hv => ?_, ih h.2 (List.mem_map_of_mem hrow)⟩
      have hcell := h.1 row.head?.join (List.mem_map_of_mem hrow)
      rw [Option.mem_def.mp hv] at hcell
      exact hcell.admits

variable {file body : Array UInt8} {footer : Footer}

/-- Rows in order have keys in order, unless strings are cut before the last column of the key. -/
theorem Lies.keysAscend [Lz4.Compressor] (h : plan.Lies rows body footer)
    (hkeeps : plan.schema.KeepsOrder)
    (hrows : rows.Pairwise fun a b => (Row.cmp plan.schema.shortKeys a b).isLE) :
    plan.KeysAscend rows := by
  refine hrows.imp_of_mem fun {a b} ha hb hab => ?_
  have hadmits : ∀ row ∈ rows,
      Schema.Admits (plan.schema.columns.take plan.schema.shortKeys) row := fun row hrow =>
    (admits_of_accepted h.accepted hrow).take _
  exact Schema.isLE_keyOf hkeeps (hadmits a ha) (hadmits b hb)
    (by rwa [plan.schema.length_shortKeys])

end SegmentPlan

/-- The file opens as a segment with this short-key index. -/
def Segment.HasKeys (file : Array UInt8) (index : ShortKeyIndex) : Prop :=
  ∃ segment, Segment.open (.memory file) = .ok segment ∧ segment.shortKeys = .ok (some index)

theorem SegmentPlan.Lies.hasKeys [Lz4.Compressor] {plan : SegmentPlan} {rows : List Row}
    {file body : Array UInt8} {footer : Footer} (h : plan.Lies rows body footer)
    (hfile : Segment.Sealed file body footer.encode) :
    Segment.HasKeys file (plan.keyIndex rows) :=
  ⟨_, h.open_eq_ok hfile, h.shortKeys_eq_ok hfile⟩

/-- Two rows whose keys come in the other order, each in a block of its own: the search for the
first ends behind it. -/
theorem SegmentWriter.Writes.skips_first [Lz4.Compressor] {id : UInt32} {schema : Schema}
    {options : SegmentOptions} {initial file : Array UInt8} {a b : Row}
    (h : SegmentWriter.Writes id schema options initial [a, b] file) (hsize : file.size < 2 ^ 64)
    (hblock : options.numRowsPerBlock = 1)
    (hkeys : compare (schema.shortKey b) (schema.shortKey a) = .lt) :
    ∃ index, Segment.HasKeys file index ∧
      0 < index.blockStart (index.seekBlock (schema.shortKey a)) := by
  obtain ⟨plan, body, footer, rfl, rfl, rfl, hsealed, hlies⟩ := h.lies hsize
  refine ⟨_, hlies.hasKeys hsealed, ?_⟩
  have hblockKeys : plan.blockKeys [a, b] = [plan.schema.shortKey a, plan.schema.shortKey b] := by
    have hblocks : ShortKeyIndex.blocksFor [a, b].length 1 = 2 := by
      rw [ShortKeyIndex.blocksFor_eq Nat.one_pos, Nat.mod_one, Nat.div_one]
      rfl
    rw [SegmentPlan.blockKeys, hblock, hblocks]
    rfl
  rw [SegmentPlan.keyIndex, hblockKeys, ShortKeyIndex.seekBlock_of_disordered hkeys,
    ShortKeyIndex.blockStart, plan.toNat_rowsPerBlock, hblock]
  exact Nat.one_pos

/-- If strings are kept whole before the last column of the short key, the search for the key of any
row of a segment whose rows are in order ends at a block that begins with the row or before it, so
that a scan from there comes to the row. If they are not, there are two rows in order, with values
for all columns, such that the search for the first ends behind it in each segment of the two with
blocks of one row. -/
theorem seek_reaches_rows [Lz4.Compressor] (schema : Schema) :
    (schema.KeepsOrder → ∀ {id options initial rows file},
      SegmentWriter.Writes id schema options initial rows file → file.size < 2 ^ 64 →
        (rows.Pairwise fun a b => (Row.cmp schema.shortKeys a b).isLE) →
          ∃ index, Segment.HasKeys file index ∧ ∀ i row, rows[i]? = some row →
            index.blockStart (index.seekBlock (schema.shortKey row)) ≤ i) ∧
    (¬ schema.KeepsOrder → ∃ a b, Schema.Fills schema.columns a ∧ Schema.Fills schema.columns b ∧
      Row.cmp schema.shortKeys a b = .lt ∧ ∀ {id options initial file},
        options.numRowsPerBlock = 1 →
          SegmentWriter.Writes id schema options initial [a, b] file → file.size < 2 ^ 64 →
            ∃ index, Segment.HasKeys file index ∧
              0 < index.blockStart (index.seekBlock (schema.shortKey a))) := by
  constructor
  · intro hkeeps id options initial rows file hwrites hsize hrows
    obtain ⟨plan, body, footer, rfl, rfl, rfl, hsealed, hlies⟩ := hwrites.lies hsize
    have hascend := hlies.keysAscend hkeeps hrows
    exact ⟨_, hlies.hasKeys hsealed, fun i row hi => hascend.blockStart_seekBlock_le hi⟩
  · intro hcuts
    obtain ⟨a, b, ha, hb, hrows, hkeys⟩ := Schema.exists_disordered hcuts
    refine ⟨a, b, ha, hb, hrows, fun hblock hwrites hsize => ?_⟩
    exact hwrites.skips_first hsize hblock (Std.OrientedCmp.lt_of_gt hkeys)

attribute [local instance] Lz4.matcher

/-- A null, numbers, and behind them strings of which four bytes count. -/
theorem seek_reaches_numbers :
    let schema : Schema := {
      columns := [{ uniqueId := 3, name := "n", type := .int, isKey := true },
        { uniqueId := 5, name := "s", type := .varchar, indexLength := 4, isKey := true }]
      shortKeys := 2
      nonempty := by decide
      distinct := by decide
      keysFirst := by decide
      shortKeys_le := by decide }
    let options : SegmentOptions := { numRowsPerBlock := 2, compression := .none }
    let rows : List Row := [[none, some (.bytes [122])],
      [some (.int32 (-3)), some (.bytes [97, 98, 99, 100, 120])],
      [some (.int32 (-3)), some (.bytes [97, 98, 99, 100, 121])], [some (.int32 5), none]]
    schema.KeepsOrder ∧ (rows.Pairwise fun a b => (Row.cmp schema.shortKeys a b).isLE) ∧
      ∃ file, SegmentWriter.Writes 1 schema options #[] rows file ∧ file.size < 2 ^ 64 ∧
        ∃ index, Segment.HasKeys file index ∧ ∀ i row, rows[i]? = some row →
          index.blockStart (index.seekBlock (schema.shortKey row)) ≤ i := by
  intro schema options rows
  have hrun : (SegmentWriter.written? 1 schema options #[] rows).any (·.size < 2 ^ 64) := by
    decide +kernel
  have hkeeps : schema.KeepsOrder := by
    decide
  have hrows : rows.Pairwise fun a b => (Row.cmp schema.shortKeys a b).isLE := by
    decide +kernel
  obtain ⟨file, hwrites, hsize⟩ := SegmentWriter.exists_writes hrun
  exact ⟨hkeeps, hrows, file, hwrites, hsize,
    (seek_reaches_rows schema).1 hkeeps hwrites hsize hrows⟩

/-- The rows `abcdx`, 5 and `abcdy`, 3 have the keys `abcd`, 5 and `abcd`, 3. A search for the first
row begins at the second. -/
theorem seek_skips_cut_string :
    let schema : Schema := {
      columns := [{ uniqueId := 1, name := "s", type := .varchar, indexLength := 4, isKey := true },
        { uniqueId := 2, name := "n", type := .int, isKey := true }]
      shortKeys := 2
      nonempty := by decide
      distinct := by decide
      keysFirst := by decide
      shortKeys_le := by decide }
    let options : SegmentOptions := { numRowsPerBlock := 1, compression := .none }
    let rows : List Row := [[some (.bytes [97, 98, 99, 100, 120]), some (.int32 5)],
      [some (.bytes [97, 98, 99, 100, 121]), some (.int32 3)]]
    (rows.Pairwise fun a b => (Row.cmp schema.shortKeys a b).isLE) ∧
      ∃ file, SegmentWriter.Writes 0 schema options #[] rows file ∧ file.size < 2 ^ 64 ∧
        ∃ index, Segment.HasKeys file index ∧
          0 < index.blockStart (index.seekBlock (schema.shortKey rows[0])) := by
  intro schema options rows
  have hrun : (SegmentWriter.written? 0 schema options #[] rows).any (·.size < 2 ^ 64) := by
    decide +kernel
  obtain ⟨file, hwrites, hsize⟩ := SegmentWriter.exists_writes hrun
  have hrows : rows.Pairwise fun a b => (Row.cmp schema.shortKeys a b).isLE := by
    decide +kernel
  exact ⟨hrows, file, hwrites, hsize, hwrites.skips_first hsize rfl (by decide +kernel)⟩

end Columnar
