import Columnar.Proofs.ColumnBatches
import Columnar.Proofs.RowAlignment

/-! # Batches of rows

Scans of all columns that stand at the same row give blocks of the rows that come next. -/

namespace Columnar

/-! ## Rows and columns -/

namespace RowBlock

/-- The columns that rows of a width make. -/
def columnsOf : (width : ℕ) → List Row → List (List Cell)
  | 0, _ => []
  | width + 1, rows => rows.map (·.head?.join) :: columnsOf width (rows.map List.tail)

@[simp] theorem length_columnsOf (width : ℕ) (rows : List Row) :
    (columnsOf width rows).length = width := by
  induction width generalizing rows with
  | zero => rfl
  | succ width ih => simp [columnsOf, ih]

theorem length_of_mem_columnsOf {width : ℕ} {rows : List Row} {column : List Cell}
    (h : column ∈ columnsOf width rows) : column.length = rows.length := by
  induction width generalizing rows with
  | zero => cases h
  | succ width ih =>
      rcases List.mem_cons.mp h with rfl | h
      · exact List.length_map _
      · exact (ih h).trans (List.length_map _)

@[simp] theorem columnsOf_nil (width : ℕ) : columnsOf width [] = List.replicate width [] := by
  induction width with
  | zero => rfl
  | succ width ih => simp [columnsOf, ih, List.replicate_succ]

/-- A slice of the rows makes slices of the columns. -/
theorem slice_columnsOf (width : ℕ) (rows : List Row) (ordinal limit : ℕ) :
    (columnsOf width rows).map (fun cells => (cells.drop ordinal).take limit) =
      columnsOf width ((rows.drop ordinal).take limit) := by
  induction width generalizing rows with
  | zero => rfl
  | succ width ih => simp only [columnsOf, List.map_cons, List.map_take, List.map_drop, ih]

theorem columnsOf_cons {width : ℕ} {row : Row} (h : row.length = width) (rows : List Row) :
    columnsOf width (row :: rows) = List.zipWith List.cons row (columnsOf width rows) := by
  induction row generalizing width rows with
  | nil =>
      obtain rfl := h
      rfl
  | cons c row ih =>
      obtain rfl := h
      simp [columnsOf, ih rfl]

theorem transpose_columnsOf {width : ℕ} {rows : List Row} (h : ∀ row ∈ rows, row.length = width) :
    ∀ done, transpose rows.length (columnsOf width rows) done = done.reverse ++ rows := by
  induction rows with
  | nil =>
      intro done
      simp [transpose]
  | cons row rows ih =>
      intro done
      have hrow := h row (by simp)
      have hcolumns : row.length = (columnsOf width rows).length := by rw [length_columnsOf, hrow]
      have htails : (List.zipWith List.cons row (columnsOf width rows)).map List.tail =
          columnsOf width rows := by
        rw [List.map_zipWith, ← List.map_uncurry_zip_eq_zipWith]
        exact List.map_snd_zip hcolumns.ge
      have hheads :
          (List.zipWith List.cons row (columnsOf width rows)).map (·.head?.join) = row := by
        rw [List.map_zipWith, ← List.map_uncurry_zip_eq_zipWith]
        exact List.map_fst_zip hcolumns.le
      rw [List.length_cons, columnsOf_cons hrow, transpose, htails, hheads,
        ih fun r hr => h r (by simp [hr])]
      simp

/-- A block of rows shows these rows. -/
theorem rows_columnsOf {width : ℕ} {rows : List Row} (hwidth : 0 < width)
    (h : ∀ row ∈ rows, row.length = width) : (RowBlock.mk (columnsOf width rows)).rows = rows := by
  have hnumRows : (RowBlock.mk (columnsOf width rows)).numRows = rows.length := by
    obtain ⟨width, rfl⟩ := Nat.exists_eq_succ_of_ne_zero (Nat.ne_of_gt hwidth)
    simp [numRows, columnsOf]
  rw [RowBlock.rows, hnumRows, transpose_columnsOf h]
  rfl

end RowBlock

namespace RowScan

/-! ## One batch -/

/-- The scan stands at an ordinal of columns that together show these rows. -/
structure Shows (failures : Error → Prop) (width : ℕ) (rows : List Row) (columns : List Column)
    (ordinal : ℕ) (r : RowScan) : Prop where
  cells : List.Forall₂ (fun cells c => c.Shows failures cells)
    (RowBlock.columnsOf width rows) columns
  level : List.Forall₂ (Level rows.length ordinal) columns r.columns
  numRows : r.numRows = rows.length
  ordinal_eq : r.ordinal = ordinal
  ordinal_le : ordinal ≤ rows.length

variable {failures : Error → Prop} {width : ℕ} {rows : List Row} {columns : List Column}

theorem shows_scan (h : List.Forall₂ (fun cells c => c.Shows failures cells)
      (RowBlock.columnsOf width rows) columns) :
    Shows failures width rows columns 0
      { columns := columns.map Column.scan, numRows := rows.length } where
  cells := h
  level := by
    refine level_scans fun c hc => ?_
    obtain ⟨k, hk⟩ := List.mem_iff_getElem?.mp hc
    obtain ⟨cells, hcells, hshows⟩ := forall₂_getElem? h hk
    have hrows := RowBlock.length_of_mem_columnsOf (List.mem_of_getElem? hcells)
    exact ⟨hshows.indexed, hshows.numRows.trans hrows⟩
  numRows := rfl
  ordinal_eq := rfl
  ordinal_le := Nat.zero_le _

namespace Shows

variable {ordinal : ℕ} {r : RowScan}

theorem length_eq (h : Shows failures width rows columns ordinal r) : columns.length = width := by
  rw [← h.cells.length_eq, RowBlock.length_columnsOf]

theorem coherent (h : Shows failures width rows columns ordinal r) (hwidth : 0 < width) :
    Coherent columns r where
  nonempty := List.ne_nil_of_length_pos (h.length_eq ▸ hwidth)
  stands := stands_of_level (h.numRows ▸ h.level)
  ordinal_le := by
    rw [h.ordinal_eq, h.numRows]
    exact h.ordinal_le
  aligned_or_stuck := .inl (by rw [h.ordinal_eq, h.numRows]; exact h.level)

/-- A column that gets stuck does so as it may. -/
theorem failures_of_stuck (h : Shows failures width rows columns ordinal r) {numRows : ℕ}
    {scans : List Scan} (hstands : List.Forall₂ (Stands numRows) columns scans) {s : Scan}
    (hs : s ∈ scans) {e : Error} (hstuck : s.Stuck e) : failures e := by
  obtain ⟨k, hk⟩ := List.mem_iff_getElem?.mp hs
  obtain ⟨c, hc, -, hat⟩ := forall₂_getElem? hstands hk
  obtain ⟨cells, -, hshows⟩ := forall₂_getElem? h.cells hc
  obtain ⟨hlt, hcell⟩ := hstuck
  rw [hat.column_eq] at hlt hcell
  exact hshows.failures_of_cellAt hlt hcell

/-- The next batch is a block of the rows that come next, unless it fails as it may. -/
theorem next (h : Shows failures width rows columns ordinal r) (hwidth : 0 < width) {limit : ℕ}
    (hlimit : 0 < limit) (earlier : RowBlock) :
    let batch := (rows.drop ordinal).take limit
    (∃ r', RowScan.next limit (r, earlier) =
        .ok (if batch = [] then .endOfData else .read batch.length)
          (r', ⟨RowBlock.columnsOf width batch⟩) ∧
      Shows failures width rows columns (ordinal + batch.length) r') ∨
    ∃ e state, RowScan.next limit (r, earlier) = .error e state ∧ failures e := by
  intro batch
  have hle := h.ordinal_le
  have hlen : batch.length = min limit (rows.length - ordinal) := by
    rw [List.length_take, List.length_drop]
  have hcases := (h.coherent hwidth).next_cases hlimit earlier
  rw [h.ordinal_eq, h.numRows] at hcases
  rcases hcases with ⟨hend, hnext⟩ | ⟨r', found, hlt, hnext, -, hrows, hordinal, hlevel, hfound⟩ |
    ⟨e, r', block, hnext, hcoherent, -, -, hstuck⟩
  · have hnil : batch = [] := by
      rw [← List.length_eq_zero_iff]
      omega
    have hcolumns : r.columns.length = width := by rw [← h.level.length_eq, h.length_eq]
    refine .inl ⟨r, ?_, ?_⟩
    · rw [hnext, if_pos hnil, hnil, hcolumns, RowBlock.columnsOf_nil]
      rfl
    · rw [hnil]
      exact h
  · rw [← hlen] at hnext hordinal hfound
    rw [hrows, hordinal] at hlevel
    have hbatch : batch ≠ [] := by
      rw [← List.length_pos_iff]
      omega
    have hblock : found = RowBlock.columnsOf width batch := by
      have hmem := (List.forall₂_and_left (p := (· ∈ RowBlock.columnsOf width rows)) _ _).mpr
        ⟨fun _ hc => hc, h.cells⟩
      rw [← RowBlock.slice_columnsOf, ← List.forall₂_eq_eq_eq, List.forall₂_map_right_iff]
      refine forall₂_comp (fun found c cells hcells hshows => ?_) hfound.flip hmem.flip
      have hrows := RowBlock.length_of_mem_columnsOf hshows.1
      rw [hshows.2.eq_of_cellsFrom (by omega) hcells, hlen, ← hrows, ← List.length_drop,
        ← List.take_eq_take_min]
    refine .inl ⟨r', ?_, h.cells, hlevel, hrows, hordinal, by omega⟩
    rw [hnext, if_neg hbatch, hblock]
  · obtain ⟨s, hs, hstuck⟩ := hstuck h.level
    exact .inr ⟨e, _, hnext, h.failures_of_stuck hcoherent.stands hs hstuck⟩

end Shows

/-! ## All batches -/

/-- Batches with one limit after the other, each with its status. -/
def drain : List ℕ → EStateM Error (RowScan × RowBlock) (List (BatchStatus × RowBlock))
  | [] => return []
  | limit :: limits => do
    let status ← RowScan.next limit
    let (_, block) ← get
    let rest ← drain limits
    return (status, block) :: rest

theorem drain_cons (limit : ℕ) (limits : List ℕ) (state : RowScan × RowBlock) :
    drain (limit :: limits) state =
      match RowScan.next limit state with
      | .error e state => .error e state
      | .ok status state =>
        match drain limits state with
        | .error e state => .error e state
        | .ok rest last => .ok ((status, state.2) :: rest) last := by
  change EStateM.bind (RowScan.next limit) _ state = _
  rw [EStateM.bind]
  cases RowScan.next limit state with
  | error e state => rfl
  | ok status state =>
      change EStateM.bind (drain limits) _ state = match drain limits state with | _ => _
      rw [EStateM.bind]
      cases drain limits state <;> rfl

/-- The rows cut up by one limit after the other. At the end nothing is left. -/
def batches : List ℕ → List Row → List (BatchStatus × List Row)
  | [], _ => []
  | limit :: limits, rows =>
    (if rows.take limit = [] then .endOfData else .read (rows.take limit).length,
      rows.take limit) ::
        batches limits (rows.drop limit)

/-- Joined together, the batches are the rows again. -/
theorem flatMap_batches (limits : List ℕ) (rows : List Row) :
    (batches limits rows).flatMap Prod.snd = rows.take limits.sum := by
  induction limits generalizing rows with
  | nil => rfl
  | cons limit limits ih =>
      rw [batches, List.flatMap_cons, ih, List.sum_cons, List.take_add]

/-- A scan gives the rows that are left, cut up by the limits, unless it fails as it may. -/
theorem Shows.drain {ordinal : ℕ} {r : RowScan} (h : Shows failures width rows columns ordinal r)
    (hwidth : 0 < width) (hrows : ∀ row ∈ rows, row.length = width) {limits : List ℕ}
    (hlimits : ∀ limit ∈ limits, 0 < limit) (earlier : RowBlock) :
    (∃ found state, RowScan.drain limits (r, earlier) = .ok found state ∧
      found.map (fun b => (b.1, b.2.rows)) = batches limits (rows.drop ordinal)) ∨
    ∃ e state, RowScan.drain limits (r, earlier) = .error e state ∧ failures e := by
  induction limits generalizing ordinal r earlier with
  | nil => exact .inl ⟨[], _, rfl, rfl⟩
  | cons limit limits ih =>
      have hstep := h.next hwidth (hlimits limit (by simp)) earlier
      obtain ⟨batch, hbatch⟩ : ∃ batch, (rows.drop ordinal).take limit = batch := ⟨_, rfl⟩
      simp only [hbatch] at hstep
      rcases hstep with ⟨r', hnext, hr'⟩ | ⟨e, state, hnext, hfailure⟩
      · rcases ih hr' (fun l hl => hlimits l (by simp [hl])) ⟨RowBlock.columnsOf width batch⟩ with
          ⟨found, state, hrest, hfound⟩ | ⟨e, state, hrest, hfailure⟩
        · have hblock : (RowBlock.mk (RowBlock.columnsOf width batch)).rows = batch :=
            RowBlock.rows_columnsOf hwidth fun row hrow =>
              hrows row (List.mem_of_mem_drop (List.mem_of_mem_take (hbatch ▸ hrow)))
          have hleft : rows.drop (ordinal + batch.length) = (rows.drop ordinal).drop limit := by
            rw [← hbatch, List.drop_drop, List.drop_eq_drop_iff, List.length_take, List.length_drop]
            omega
          refine .inl ⟨_, state, by simp only [drain_cons, hnext, hrest]; rfl, ?_⟩
          rw [List.map_cons, hfound, hleft, batches, hblock, hbatch]
        · exact .inr ⟨e, state, by simp only [drain_cons, hnext, hrest], hfailure⟩
      · exact .inr ⟨e, state, by rw [drain_cons, hnext], hfailure⟩

end RowScan

end Columnar
