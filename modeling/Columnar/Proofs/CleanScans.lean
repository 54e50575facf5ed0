import Columnar.Lz4.Matcher
import Columnar.Proofs.RowBatches
import Columnar.Proofs.SegmentFailures

/-! # Scans that reach the end

If all batches of a scan come out and one of them reports the end, they have as many rows together
as the segment. Without columns there are no batches, whatever the number of rows is said to be. -/

namespace Columnar

/-- How many rows a batch has. -/
def BatchStatus.count : BatchStatus → ℕ
  | .read n => n
  | .endOfData => 0

namespace RowScan

/-- How many rows batches have together. -/
def rowsRead (found : List (BatchStatus × RowBlock)) : ℕ := (found.map fun b => b.1.count).sum

variable {columns : List Column} {r r' : RowScan} {limit : ℕ} {limits : List ℕ}
  {earlier block : RowBlock} {found : List (BatchStatus × RowBlock)}

theorem of_drain_cons {state last : RowScan × RowBlock}
    (h : drain (limit :: limits) state = .ok found last) :
    ∃ status mid rest, RowScan.next limit state = .ok status mid ∧
      drain limits mid = .ok rest last ∧ found = (status, mid.2) :: rest := by
  obtain ⟨status, mid, hnext, h⟩ := bind_eq_ok h
  obtain ⟨_, _, hget, h⟩ := bind_eq_ok h
  cases hget
  obtain ⟨rest, _, hrest, h⟩ := bind_eq_ok h
  cases h
  exact ⟨status, mid, rest, hnext, hrest, rfl⟩

/-- A batch takes the scan on by its rows, and only at the last row there is none. -/
theorem Coherent.of_next (h : Coherent columns r) {status : BatchStatus}
    (hnext : RowScan.next limit (r, earlier) = .ok status (r', block)) :
    Coherent columns r' ∧ r'.numRows = r.numRows ∧ r'.ordinal = r.ordinal + status.count ∧
      (status = .endOfData → r.numRows ≤ r.ordinal) := by
  rcases h.next_cases (limit_pos hnext) earlier with
    ⟨hend, hrun⟩ | ⟨r₁, cells, -, hrun, hcoherent, hrows, hordinal, -⟩ | ⟨e, r₁, block', hrun, -⟩
  · rw [hrun] at hnext
    cases hnext
    exact ⟨h, rfl, rfl, fun _ => hend⟩
  · rw [hrun] at hnext
    cases hnext
    exact ⟨hcoherent, hrows, hordinal, fun hstatus => by cases hstatus⟩
  · rw [hrun] at hnext
    cases hnext

/-- So do all batches together; behind one that reports the end there is no row left. -/
theorem Coherent.of_drain (h : Coherent columns r)
    (hdrain : drain limits (r, earlier) = .ok found (r', block)) :
    Coherent columns r' ∧ r'.numRows = r.numRows ∧ r'.ordinal = r.ordinal + rowsRead found ∧
      (.endOfData ∈ found.map Prod.fst → r'.numRows ≤ r'.ordinal) := by
  induction limits generalizing r earlier found with
  | nil =>
      cases hdrain
      exact ⟨h, rfl, rfl, fun hend => by cases hend⟩
  | cons limit limits ih =>
      obtain ⟨status, ⟨r₁, block₁⟩, rest, hnext, hrest, rfl⟩ := of_drain_cons hdrain
      obtain ⟨hcoherent, hrows, hordinal, hlast⟩ := h.of_next hnext
      obtain ⟨hcoherent', hrows', hordinal', hlast'⟩ := ih hcoherent hrest
      refine ⟨hcoherent', hrows'.trans hrows, ?_, fun hend => ?_⟩
      · rw [hordinal', hordinal, rowsRead, rowsRead, List.map_cons, List.sum_cons, Nat.add_assoc]
      · rw [List.map_cons, List.mem_cons] at hend
        rcases hend with hend | hend
        · have hle := hlast hend.symm
          omega
        · exact hlast' hend

theorem rowsRead_of_nil (h : r.columns = [])
    (hdrain : drain limits (r, earlier) = .ok found (r', block)) : rowsRead found = 0 := by
  induction limits generalizing r earlier found with
  | nil =>
      cases hdrain
      rfl
  | cons limit limits ih =>
      obtain ⟨status, ⟨r₁, block₁⟩, rest, hnext, hrest, rfl⟩ := of_drain_cons hdrain
      have hrun := next_nil h (limit_pos hnext) earlier
      rw [hrun] at hnext
      cases hnext
      rw [rowsRead, List.map_cons, List.sum_cons, BatchStatus.count, Nat.zero_add]
      exact ih h hrest

end RowScan

/-- If batches are read without a failure until one reports the end, they have all rows of the
segment, or none if it has no columns. -/
theorem clean_scan_reads_all {segment : Segment} {options : ReadOptions} {scan : RowScan}
    (hscan : segment.rows options = .ok scan) {limits : List ℕ} {earlier : RowBlock}
    {found : List (BatchStatus × RowBlock)} {state : RowScan × RowBlock}
    (hdrain : RowScan.drain limits (scan, earlier) = .ok found state)
    (hend : .endOfData ∈ found.map Prod.fst) :
    RowScan.rowsRead found = if segment.numColumns = 0 then 0 else segment.numRows := by
  obtain ⟨r', block⟩ := state
  obtain ⟨columns, hlen, hcolumns, rfl⟩ := Segment.rows_eq_ok hscan
  split
  next hzero =>
    obtain rfl := List.eq_nil_of_length_eq_zero (hlen.trans hzero)
    exact RowScan.rowsRead_of_nil rfl hdrain
  next hpos =>
    have hcoherent := Segment.rows_coherent hlen (Nat.pos_of_ne_zero hpos) hcolumns
    obtain ⟨hcoherent', hrows, hordinal, hlast⟩ := hcoherent.of_drain hdrain
    have hle := hcoherent'.ordinal_le
    have hge := hlast hend
    rw [Nat.zero_add] at hordinal
    rw [← hordinal, Nat.le_antisymm hle hge, hrows]

attribute [local instance] Lz4.matcher

/-- Two columns with pages of their own, and more calls than there are batches. -/
theorem clean_scan_reads_all_numbers :
    let schema : Schema := {
      columns := [{ uniqueId := 1, name := "a", type := .int },
        { uniqueId := 2, name := "s", type := .varchar }]
      shortKeys := 0
      nonempty := by decide
      distinct := by decide
      keysFirst := by decide
      shortKeys_le := by decide }
    let options : SegmentOptions := { maxRowsPerPage := 2, compression := .none }
    let rows : List Row := [[some (.int32 1), none], [some (.int32 2), some (.bytes [97])],
      [some (.int32 3), some (.bytes [])]]
    ∃ file segment scan found state, SegmentWriter.Writes 0 schema options #[] rows file ∧
      Segment.open (.memory file) = .ok segment ∧ segment.rows {} = .ok scan ∧
      RowScan.drain [1, 7, 2, 4] (scan, ⟨[]⟩) = .ok found state ∧
      .endOfData ∈ found.map Prod.fst ∧
      RowScan.rowsRead found = if segment.numColumns = 0 then 0 else segment.numRows := by
  intro schema options rows
  have hrun : ((SegmentWriter.written? 0 schema options #[] rows).bind fun file =>
      (Segment.open (.memory file)).toOption.bind fun segment =>
        (segment.rows {}).toOption.bind fun scan =>
          (outcome? (RowScan.drain [1, 7, 2, 4] (scan, ⟨[]⟩))).map fun found =>
            found.1.map Prod.fst) =
        some [.read 1, .read 2, .endOfData, .endOfData] := by
    decide +kernel
  obtain ⟨file, hfile, hrun⟩ := Option.bind_eq_some_iff.mp hrun
  obtain ⟨segment, hsegment, hrun⟩ := Option.bind_eq_some_iff.mp hrun
  obtain ⟨scan, hscan, hrun⟩ := Option.bind_eq_some_iff.mp hrun
  obtain ⟨⟨found, state⟩, hdrain, hstatus⟩ := Option.map_eq_some_iff.mp hrun
  have hscan := eq_ok_of_toOption hscan
  have hdrain := eq_ok_of_outcome? hdrain
  have hend : .endOfData ∈ found.map Prod.fst := by
    rw [hstatus]
    decide
  exact ⟨file, segment, scan, found, state, SegmentWriter.writes_iff.mpr hfile,
    eq_ok_of_toOption hsegment, hscan, hdrain, hend, clean_scan_reads_all hscan hdrain hend⟩

/-- A footer of no columns that is said to have five rows. -/
theorem clean_scan_reads_none :
    let file : Array UInt8 :=
      #[1, 5, 0, 0, 4, 0, 0, 0, 0x1b, 0xd7, 0xbd, 0xae, 0x44, 0x30, 0x52, 0x31]
    ∃ segment scan found state, Segment.open (.memory file) = .ok segment ∧
      segment.rows {} = .ok scan ∧ RowScan.drain [1] (scan, ⟨[]⟩) = .ok found state ∧
      .endOfData ∈ found.map Prod.fst ∧ RowScan.rowsRead found ≠ segment.numRows := by
  intro file
  have hrun : ((Segment.open (.memory file)).toOption.bind fun segment =>
      (segment.rows {}).toOption.bind fun scan =>
        (outcome? (RowScan.drain [1] (scan, ⟨[]⟩))).map fun found =>
          (found.1.map Prod.fst, RowScan.rowsRead found.1, segment.numRows)) =
        some ([.endOfData], 0, 5) := by
    decide +kernel
  obtain ⟨segment, hsegment, hrun⟩ := Option.bind_eq_some_iff.mp hrun
  obtain ⟨scan, hscan, hrun⟩ := Option.bind_eq_some_iff.mp hrun
  obtain ⟨⟨found, state⟩, hdrain, hfound⟩ := Option.map_eq_some_iff.mp hrun
  obtain ⟨hstatus, hread, hrows⟩ : found.map Prod.fst = [.endOfData] ∧
      RowScan.rowsRead found = 0 ∧ segment.numRows = 5 := by
    simpa using hfound
  refine ⟨segment, scan, found, state, eq_ok_of_toOption hsegment, eq_ok_of_toOption hscan,
    eq_ok_of_outcome? hdrain, ?_, ?_⟩
  · rw [hstatus]
    decide
  · rw [hread, hrows]
    decide

end Columnar
