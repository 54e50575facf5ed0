import Columnar.Proofs.Lz4Matches
import Columnar.Proofs.RowBatches
import Columnar.Proofs.SegmentReading

/-! # Segments come back

What was written to a segment is read from it again: all rows in order, in batches of any size. -/

namespace Columnar

/-- The body of each page of each column is shorter than 4 GiB. -/
def SegmentOptions.BodiesFit (o : SegmentOptions) (schema : Schema) (rows : List Row) : Prop :=
  ∀ c ∈ schema.columns.zipIdx,
    ∀ run ∈ Page.runs (o.format c.1) (o.column c.1) (rows.map fun row => row[c.2]?.join),
      ∀ body ∈ (Page.body c.1.field (.default c.1.type) run).toOption, body.length < 2 ^ 32

instance (o : SegmentOptions) (schema : Schema) (rows : List Row) :
    Decidable (o.BodiesFit schema rows) :=
  inferInstanceAs (Decidable (∀ c ∈ schema.columns.zipIdx,
    ∀ run ∈ Page.runs (o.format c.1) (o.column c.1) (rows.map fun row => row[c.2]?.join),
      ∀ body ∈ (Page.body c.1.field (.default c.1.type) run).toOption, body.length < 2 ^ 32))

namespace SegmentPlan

variable {plan : SegmentPlan} {rows : List Row} {file body : Array UInt8} {footer : Footer}

theorem map_cells_tasksFrom (plan : SegmentPlan) (position : ℕ) (cs : List ColumnSchema)
    (rows : List Row) :
    (plan.tasksFrom position cs rows).map ColumnTask.cells = RowBlock.columnsOf cs.length rows := by
  induction cs generalizing position rows with
  | nil => rfl
  | cons c cs ih => simp [tasksFrom, RowBlock.columnsOf, ih]

/-- The bodies of the pages fit the compressed form, if they are compressed. -/
def Fits (plan : SegmentPlan) (rows : List Row) : Prop :=
  plan.options.compression = .lz4 → plan.options.BodiesFit plan.schema rows

/-- If the bodies of a segment fit, those of each column do. -/
theorem Fits.column (hfit : plan.Fits rows) {t : ColumnTask} (ht : t ∈ plan.tasks rows) :
    t.plan.Fits t.cells := by
  intro hcompression run hrun bytes hbytes
  obtain ⟨i, hi⟩ := List.mem_iff_getElem?.mp ht
  rw [tasks, getElem?_tasksFrom] at hi
  obtain ⟨c, hc, rfl⟩ := Option.map_eq_some_iff.mp hi
  refine hfit hcompression (c, i) (List.mk_mem_zipIdx_iff_getElem?.mpr hc) run hrun bytes ?_
  change (Page.body c.field (.default c.type) run).toOption = some bytes
  exact (congrArg Except.toOption hbytes).trans rfl

/-- A scan of a finished segment starts at its first row. -/
theorem Lies.rows_shows [Lz4.Compressor] [Lz4.LawfulCompressor] (h : plan.Lies rows body footer)
    (hfile : Segment.Sealed file body footer.encode) (hfit : plan.Fits rows)
    (options : ReadOptions) :
    ∃ columns scan, (Segment.mk (.memory file) footer).rows options = .ok scan ∧
      RowScan.Shows (fun _ => False) plan.schema.columns.length rows columns 0 scan := by
  obtain ⟨columns, hcolumns, hopened⟩ := h.rows_eq_ok hfile options
  refine ⟨columns, _, hcolumns, RowScan.shows_scan ?_⟩
  rw [← map_cells_tasksFrom plan 0, List.forall₂_map_left_iff]
  have hmem := (List.forall₂_and_left (p := (· ∈ plan.tasks rows)) _ _).mpr
    ⟨fun _ ht => ht, hopened⟩
  exact hmem.imp fun t col ht => ht.2.shows fun k run hk =>
    ht.2.readPage_eq_ok (h.accepted t ht.1) hk fun hc =>
      hfit.column ht.1 hc run (List.mem_of_getElem? hk)

end SegmentPlan

/-- A segment opens after it was written, with the number of its rows. A scan of all columns gives
the rows in order, cut up by whatever limits there are, and then nothing. -/
theorem segment_round_trip [Lz4.Compressor] [Lz4.LawfulCompressor] {id : UInt32}
    {schema : Schema} {options : SegmentOptions} {initial file : Array UInt8} {rows : List Row}
    (h : SegmentWriter.Writes id schema options initial rows file) (hsize : file.size < 2 ^ 64)
    (hfit : options.compression = .lz4 → options.BodiesFit schema rows) :
    ∃ segment, Segment.open (.memory file) = .ok segment ∧ segment.numRows = rows.length ∧
      ∀ readOptions, ∃ scan, segment.rows readOptions = .ok scan ∧
        ∀ limits : List ℕ, (∀ limit ∈ limits, 0 < limit) → ∀ earlier,
          ∃ found state, RowScan.drain limits (scan, earlier) = .ok found state ∧
            found.map (fun b => (b.1, b.2.rows)) = RowScan.batches limits rows ∧
            found.flatMap (·.2.rows) = rows.take limits.sum := by
  obtain ⟨plan, body, footer, rfl, rfl, rfl, hsealed, hlies⟩ := h.lies hsize
  refine ⟨_, hlies.open_eq_ok hsealed, hlies.numRows_eq, fun readOptions => ?_⟩
  obtain ⟨columns, scan, hscan, hshows⟩ := hlies.rows_shows hsealed hfit readOptions
  refine ⟨scan, hscan, fun limits hlimits earlier => ?_⟩
  have hwidth := List.length_pos_iff.mpr plan.schema.nonempty
  rcases hshows.drain hwidth hlies.widths hlimits earlier with
    ⟨found, state, hdrain, hfound⟩ | ⟨_, _, _, hnever⟩
  · refine ⟨found, state, hdrain, hfound, ?_⟩
    rw [← RowScan.flatMap_batches, ← List.drop_zero (l := rows), ← hfound, List.flatMap_map]
  · exact hnever.elim

attribute [local instance] Lz4.matcher

/-- Numbers, a null, a NaN and a negative zero, one row to a page and two to a block. -/
theorem segment_round_trip_numbers :
    let schema : Schema := {
      columns := [{ uniqueId := 7, name := "id", type := .int, isKey := true, isNullable := false },
        { uniqueId := 9, name := "share", type := .float }]
      shortKeys := 1
      nonempty := by decide
      distinct := by decide
      keysFirst := by decide
      shortKeys_le := by decide }
    let options : SegmentOptions := { numRowsPerBlock := 2, maxRowsPerPage := 1 }
    let rows : List Row := [[some (.int32 5), some (.float32 0x7fc00001)], [some (.int32 7), none],
      [some (.int32 (-3)), some (.float32 0x80000000)]]
    ∃ file, SegmentWriter.Writes 4 schema options #[1, 2, 3] rows file ∧ file.size < 2 ^ 64 ∧
      (options.compression = .lz4 → options.BodiesFit schema rows) ∧
      ∃ segment, Segment.open (.memory file) = .ok segment ∧ segment.numRows = 3 ∧
        ∃ scan, segment.rows {} = .ok scan ∧
          ∃ found state, RowScan.drain [2, 1, 5] (scan, ⟨[]⟩) = .ok found state ∧
            found.map (fun b => (b.1, b.2.rows)) =
              [(.read 2, rows.take 2), (.read 1, rows.drop 2), (.endOfData, [])] := by
  intro schema options rows
  have hrun : (SegmentWriter.written? 4 schema options #[1, 2, 3] rows).any (·.size < 2 ^ 64) := by
    decide +kernel
  have hfit : options.BodiesFit schema rows := by
    decide +kernel
  obtain ⟨file, hwrites, hsize⟩ := SegmentWriter.exists_writes hrun
  obtain ⟨segment, hopen, hnumRows, hrows⟩ := segment_round_trip hwrites hsize fun _ => hfit
  obtain ⟨scan, hscan, hdrain⟩ := hrows {}
  obtain ⟨found, state, hrun, hfound, -⟩ := hdrain [2, 1, 5] (by decide) ⟨[]⟩
  exact ⟨file, hwrites, hsize, fun _ => hfit, segment, hopen, hnumRows, scan, hscan, found, state,
    hrun, hfound⟩

end Columnar
