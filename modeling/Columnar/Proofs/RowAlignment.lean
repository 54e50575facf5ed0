import Columnar.Lz4.Matcher
import Columnar.Proofs.AcceptedColumns
import Columnar.Proofs.ColumnCursor
import Columnar.Proofs.SegmentFile
import Columnar.Segment.RowScan

/-! # Rows are not stitched together

A call that fails may leave the columns of a segment at different rows. But then one of them stands
at a cell that cannot be read, so that no batch comes out until a seek has brought all of them to
one row again. -/

namespace Columnar

theorem of_mapM_eq_ok {ε α β : Type} {f : α → Except ε β} {xs : List α} {ys : List β}
    (h : xs.mapM f = .ok ys) : List.Forall₂ (fun x y => f x = .ok y) xs ys := by
  induction xs generalizing ys with
  | nil =>
      cases h
      exact .nil
  | cons x xs ih =>
      rw [List.mapM_cons] at h
      obtain ⟨y, hy, h⟩ := of_bind_eq_ok h
      obtain ⟨rest, hrest, h⟩ := of_bind_eq_ok h
      cases h
      exact .cons hy (ih hrest)

/-! ## Columns side by side -/

/-- The cell of the next row cannot be read, for this reason. -/
def Scan.Stuck (e : Error) (s : Scan) : Prop :=
  s.ordinal < s.column.numRows ∧ s.column.cellAt s.ordinal = .error e

theorem Scan.At.stuck {c : Column} {s : Scan} {ordinal : ℕ} (h : Scan.At c s ordinal) {e : Error}
    (hlt : ordinal < c.numRows) (hcell : c.cellAt ordinal = .error e) : s.Stuck e := by
  rw [Scan.Stuck, h.column_eq, h.ordinal_eq]
  exact ⟨hlt, hcell⟩

namespace RowScan

/-- The scan stands at an ordinal of its column, which has all rows. -/
def Level (numRows ordinal : ℕ) (c : Column) (s : Scan) : Prop :=
  c.numRows = numRows ∧ Scan.At c s ordinal

/-- The scan stands anywhere in its column. -/
def Stands (numRows : ℕ) (c : Column) (s : Scan) : Prop := Level numRows s.ordinal c s

variable {numRows ordinal limit : ℕ} {columns : List Column} {scans : List Scan}

theorem Level.stands {c : Column} {s : Scan} (h : Level numRows ordinal c s) :
    Stands numRows c s := by
  obtain ⟨hrows, hat⟩ := h
  exact ⟨hrows, hat.column_eq, hat.sound, rfl, hat.ordinal_eq ▸ hat.ordinal_le⟩

/-- A scan of a column starts at its first row. -/
theorem level_scan {c : Column} (h : c.Indexed) : Level c.numRows 0 c c.scan :=
  ⟨rfl, rfl, ⟨h, by simp [Column.scan]⟩, rfl, Nat.zero_le _⟩

theorem level_scans {columns : List Column} {numRows : ℕ}
    (h : ∀ c ∈ columns, c.Indexed ∧ c.numRows = numRows) :
    List.Forall₂ (Level numRows 0) columns (columns.map Column.scan) := by
  rw [List.forall₂_map_right_iff, List.forall₂_same]
  intro c hc
  obtain ⟨hindexed, hrows⟩ := h c hc
  exact hrows ▸ level_scan hindexed

theorem stands_of_level (h : List.Forall₂ (Level numRows ordinal) columns scans) :
    List.Forall₂ (Stands numRows) columns scans :=
  h.imp fun _ _ hs => hs.stands

/-! ## Seeks -/

/-- A seek past the end is refused by the first column. -/
theorem seekAll_past (h : List.Forall₂ (Stands numRows) columns scans) (hne : columns ≠ [])
    {target : ℕ} (hpast : numRows < target) : ∃ e, seekAll target scans = .error e scans := by
  cases h with
  | nil => exact absurd rfl hne
  | cons hs _ =>
      obtain ⟨rfl, hat⟩ := hs
      rw [seekAll]
      rcases hat.seek_cases target with ⟨-, hscan⟩ | ⟨_, hle, -⟩ | ⟨_, _, hlt, -⟩
      · exact ⟨_, by rw [hscan]⟩
      · omega
      · omega

/-- Any other seek brings all columns to the row, or stops at a column that cannot read it. -/
theorem seekAll_cases (h : List.Forall₂ (Stands numRows) columns scans) {target : ℕ}
    (hle : target ≤ numRows) :
    (∃ scans', seekAll target scans = .ok () scans' ∧
        List.Forall₂ (Level numRows target) columns scans') ∨
      ∃ e scans', seekAll target scans = .error e scans' ∧
        List.Forall₂ (Stands numRows) columns scans' ∧ ∃ s ∈ scans', s.Stuck e := by
  induction h with
  | nil => exact .inl ⟨[], rfl, .nil⟩
  | @cons c s columns scans hs hscans ih =>
      obtain ⟨rfl, hat⟩ := hs
      rw [seekAll]
      rcases hat.seek_cases target with
        ⟨hpast, -⟩ | ⟨s', -, hscan, hat'⟩ | ⟨e, s', hlt, hcell, hscan, hat'⟩
      · omega
      · rw [hscan]
        have hlevel : Level c.numRows target c s' := ⟨rfl, hat'⟩
        rcases ih with ⟨scans', hrest, hall⟩ | ⟨e, scans', hrest, hall, s₁, hmem, hstuck⟩
        · exact .inl ⟨s' :: scans', by rw [hrest], .cons hlevel hall⟩
        · exact .inr ⟨e, s' :: scans', by rw [hrest], .cons hlevel.stands hall, s₁,
            List.mem_cons_of_mem _ hmem, hstuck⟩
      · rw [hscan]
        have hlevel : Level c.numRows target c s' := ⟨rfl, hat'⟩
        exact .inr ⟨e, s' :: scans, rfl, .cons hlevel.stands hscans, s', by simp,
          hat'.stuck hlt hcell⟩

/-! ## Batches -/

/-- Columns at one row give the rows that come next, or one of them gets stuck. -/
theorem nextAll_of_level (h : List.Forall₂ (Level numRows ordinal) columns scans)
    (hlimit : 0 < limit) :
    let n := min limit (numRows - ordinal)
    ∀ (expected : Option ℕ) (position : ℕ), (∀ count ∈ expected, count = n) →
      (∃ scans' cells, nextAll limit position expected scans =
          .ok (if columns = [] then expected else some n) (scans', cells) ∧
        List.Forall₂ (Level numRows (ordinal + n)) columns scans' ∧
        List.Forall₂ (fun c found => c.cellsFrom ordinal n = .ok found) columns cells) ∨
      ∃ e scans' cells, nextAll limit position expected scans = .error e (scans', cells) ∧
        List.Forall₂ (Stands numRows) columns scans' ∧ ∃ s ∈ scans', s.Stuck e := by
  intro n
  induction h with
  | nil => exact fun expected position _ => .inl ⟨[], [], rfl, .nil, .nil⟩
  | @cons c s columns scans hs hscans ih =>
      intro expected position hexpected
      obtain ⟨rfl, hat⟩ := hs
      rw [nextAll]
      rcases hat.next_cases hlimit #[] with
        ⟨found, s', hfound, hscan, hat'⟩ | ⟨found, e, s', hlt, hstop, hscan, hat'⟩
      · have hlen : found.toArray.size = n := (Column.getElem?_of_cellsFrom hfound).1
        have heven : ¬ expected.any (· ≠ n) = true := by
          cases expected with
          | none => simp
          | some count => simp [hexpected count rfl]
        have hlevel : Level c.numRows (ordinal + n) c s' := ⟨rfl, hat'⟩
        simp only [hscan, hlen]
        rw [if_neg heven]
        rcases ih (some n) (position + 1) (by simp) with
          ⟨scans', cells, hrest, hall, hcells⟩ | ⟨e, scans', cells, hrest, hall, s₁, hmem, hstuck⟩
        · refine .inl ⟨s' :: scans', found :: cells, ?_, .cons hlevel hall, .cons hfound hcells⟩
          rw [hrest, ite_self, if_neg (List.cons_ne_nil _ _)]
        · exact .inr ⟨e, s' :: scans', found :: cells, by rw [hrest], .cons hlevel.stands hall, s₁,
            List.mem_cons_of_mem _ hmem, hstuck⟩
      · have hlevel : Level c.numRows (ordinal + found.length) c s' := ⟨rfl, hat'⟩
        rw [hscan]
        exact .inr ⟨e, _, _, rfl, .cons hlevel.stands (stands_of_level hscans), s', by simp,
          hat'.stuck (by omega) hstop⟩

/-- No batch of no rows comes out. -/
theorem limit_pos {r : RowScan} {earlier : RowBlock} {status : BatchStatus}
    {state : RowScan × RowBlock} (h : RowScan.next limit (r, earlier) = .ok status state) :
    0 < limit := by
  rcases Nat.eq_zero_or_pos limit with rfl | hpos
  · cases h
  · exact hpos

/-- While a column is stuck no batch comes out, and it stays stuck. -/
theorem nextAll_of_stuck (h : List.Forall₂ (Stands numRows) columns scans) (hlimit : 0 < limit) :
    ∀ (expected : Option ℕ) (position : ℕ), (∃ e, ∃ s ∈ scans, s.Stuck e) →
      ∃ e scans' cells, nextAll limit position expected scans = .error e (scans', cells) ∧
        List.Forall₂ (Stands numRows) columns scans' ∧ ∃ e', ∃ s ∈ scans', s.Stuck e' := by
  induction h with
  | nil =>
      rintro expected position ⟨e, s, hmem, -⟩
      cases hmem
  | @cons c s columns scans hs hscans ih =>
      rintro expected position ⟨e, s₁, hmem, hstuck⟩
      obtain ⟨rfl, hat⟩ := hs
      rw [nextAll]
      rcases hat.next_cases hlimit #[] with
        ⟨found, s', hfound, hscan, hat'⟩ | ⟨found, e', s', hlt, hstop, hscan, hat'⟩
      · have hlevel : Level c.numRows _ c s' := ⟨rfl, hat'⟩
        -- the first column reads its next cell, so another one is stuck
        have hmem : s₁ ∈ scans := by
          rcases List.mem_cons.mp hmem with rfl | hmem
          · obtain ⟨hlt, hcell⟩ := hstuck
            rw [hat.column_eq] at hlt hcell
            obtain ⟨n, hn⟩ : ∃ n, min limit (c.numRows - s₁.ordinal) = n + 1 :=
              Nat.exists_eq_succ_of_ne_zero (by omega)
            rw [hn, Column.cellsFrom_succ, hcell] at hfound
            cases hfound
          · exact hmem
        simp only [hscan]
        by_cases huneven : expected.any (· ≠ found.toArray.size) = true
        · rw [if_pos huneven]
          exact ⟨_, _, _, rfl, .cons hlevel.stands hscans, e, s₁, List.mem_cons_of_mem _ hmem,
            hstuck⟩
        · rw [if_neg huneven]
          obtain ⟨e', scans', cells, hrest, hall, e'', s₂, hmem', hstuck'⟩ :=
            ih (some found.toArray.size) (position + 1) ⟨e, s₁, hmem, hstuck⟩
          exact ⟨e', _, _, by rw [hrest], .cons hlevel.stands hall, e'', s₂,
            List.mem_cons_of_mem _ hmem', hstuck'⟩
      · have hlevel : Level c.numRows (s.ordinal + found.length) c s' := ⟨rfl, hat'⟩
        rw [hscan]
        exact ⟨e', _, _, rfl, .cons hlevel.stands hscans, e', s', by simp,
          hat'.stuck (by omega) hstop⟩

/-! ## What all calls keep -/

/-- The columns are aligned at the ordinal, or one of them is stuck. -/
structure Coherent (columns : List Column) (r : RowScan) : Prop where
  nonempty : columns ≠ []
  stands : List.Forall₂ (Stands r.numRows) columns r.columns
  ordinal_le : r.ordinal ≤ r.numRows
  aligned_or_stuck : List.Forall₂ (Level r.numRows r.ordinal) columns r.columns ∨
    ∃ e, ∃ s ∈ r.columns, s.Stuck e

variable {r r' : RowScan}

theorem Coherent.seek (h : Coherent columns r) {target : ℕ}
    (hrun : RowScan.seek target r = .ok () r' ∨ ∃ e, RowScan.seek target r = .error e r') :
    Coherent columns r' ∧ r'.numRows = r.numRows := by
  rw [RowScan.seek] at hrun
  rcases Nat.lt_or_ge r.numRows target with hpast | hle
  · obtain ⟨e, hall⟩ := seekAll_past h.stands h.nonempty hpast
    rw [hall] at hrun
    rcases hrun with hrun | ⟨e', hrun⟩
    · cases hrun
    · cases hrun
      exact ⟨h, rfl⟩
  · rcases seekAll_cases h.stands hle with
      ⟨scans', hall, hlevel⟩ | ⟨e, scans', hall, hstands, hstuck⟩
    · rw [hall] at hrun
      rcases hrun with hrun | ⟨e', hrun⟩
      · cases hrun
        exact ⟨⟨h.nonempty, stands_of_level hlevel, hle, .inl hlevel⟩, rfl⟩
      · cases hrun
    · rw [hall] at hrun
      rcases hrun with hrun | ⟨e', hrun⟩
      · cases hrun
      · cases hrun
        exact ⟨⟨h.nonempty, hstands, h.ordinal_le, .inr ⟨e, hstuck⟩⟩, rfl⟩

/-- A batch of some rows is made of the next cells of all columns. Any failure leaves the ordinal as
it was; if the columns were aligned, it is that of the column that got stuck. -/
theorem Coherent.next_cases (h : Coherent columns r) (hlimit : 0 < limit) (earlier : RowBlock) :
    (r.numRows ≤ r.ordinal ∧
        RowScan.next limit (r, earlier) = .ok .endOfData (r, .empty r.columns.length)) ∨
      (∃ r' cells, let n := min limit (r.numRows - r.ordinal)
        r.ordinal < r.numRows ∧ RowScan.next limit (r, earlier) = .ok (.read n) (r', ⟨cells⟩) ∧
        Coherent columns r' ∧ r'.numRows = r.numRows ∧ r'.ordinal = r.ordinal + n ∧
        List.Forall₂ (Level r'.numRows r'.ordinal) columns r'.columns ∧
        List.Forall₂ (fun c found => c.cellsFrom r.ordinal n = .ok found) columns cells) ∨
      ∃ e r' block, RowScan.next limit (r, earlier) = .error e (r', block) ∧
        Coherent columns r' ∧ r'.numRows = r.numRows ∧ r'.ordinal = r.ordinal ∧
        (List.Forall₂ (Level r.numRows r.ordinal) columns r.columns →
          ∃ s ∈ r'.columns, s.Stuck e) := by
  simp only [RowScan.next, if_neg (Nat.ne_of_gt hlimit)]
  by_cases hend : r.numRows ≤ r.ordinal
  · exact .inl ⟨hend, if_pos hend⟩
  · rw [if_neg hend]
    rcases h.aligned_or_stuck with hlevel | hstuck
    · rcases nextAll_of_level hlevel hlimit none 0 (by simp) with
        ⟨scans', cells, hall, hlevel', hcells⟩ | ⟨e, scans', cells, hall, hstands, hstuck⟩
      · rw [if_neg h.nonempty] at hall
        have hmore : ¬ min limit (r.numRows - r.ordinal) = 0 := by omega
        let r' : RowScan :=
          { r with columns := scans', ordinal := r.ordinal + min limit (r.numRows - r.ordinal) }
        refine .inr (.inl ⟨r', cells, by omega, ?_, ⟨h.nonempty, stands_of_level hlevel', ?_,
          .inl hlevel'⟩, rfl, rfl, hlevel', hcells⟩)
        · simp only [hall, Option.getD_some, if_neg hmore]
          rfl
        · change r.ordinal + min limit (r.numRows - r.ordinal) ≤ r.numRows
          omega
      · exact .inr (.inr ⟨e, { r with columns := scans' }, ⟨cells⟩, by rw [hall],
          ⟨h.nonempty, hstands, h.ordinal_le, .inr ⟨e, hstuck⟩⟩, rfl, rfl, fun _ => hstuck⟩)
    · obtain ⟨e, scans', cells, hall, hstands, hstuck'⟩ :=
        nextAll_of_stuck h.stands hlimit none 0 hstuck
      refine .inr (.inr ⟨e, { r with columns := scans' }, ⟨cells⟩, by rw [hall],
        ⟨h.nonempty, hstands, h.ordinal_le, .inr hstuck'⟩, rfl, rfl, fun hlevel => ?_⟩)
      -- from one row on, no column but the first that fails can be stuck
      rcases nextAll_of_level hlevel hlimit none 0 (by simp) with
        ⟨_, _, hwrong, -⟩ | ⟨e', scans'', cells', hall', -, hmem⟩
      · rw [hall] at hwrong
        cases hwrong
      · rw [hall] at hall'
        cases hall'
        exact hmem

/-- What can be asked of a scan of rows. -/
inductive Call
  | seek (ordinal : ℕ)
  /-- At most `limit` rows, into a block that holds something already. -/
  | next (limit : ℕ) (earlier : RowBlock)

/-- The scan after a call, be it that it failed. -/
def Call.run : Call → RowScan → RowScan
  | .seek ordinal, r =>
    match RowScan.seek ordinal r with
    | .ok _ r | .error _ r => r
  | .next limit earlier, r =>
    match RowScan.next limit (r, earlier) with
    | .ok _ (r, _) | .error _ (r, _) => r

/-- The scan after calls, one after the other. -/
def after (calls : List Call) (r : RowScan) : RowScan := calls.foldl (fun r call => call.run r) r

theorem Coherent.run (h : Coherent columns r) (call : Call) :
    Coherent columns (call.run r) ∧ (call.run r).numRows = r.numRows := by
  cases call with
  | seek target =>
      simp only [Call.run]
      cases hrun : RowScan.seek target r with
      | ok _ r' => exact h.seek (.inl hrun)
      | error e r' => exact h.seek (.inr ⟨e, hrun⟩)
  | next limit earlier =>
      simp only [Call.run]
      rcases Nat.eq_zero_or_pos limit with rfl | hlimit
      · exact ⟨h, rfl⟩
      · rcases h.next_cases hlimit earlier with
          ⟨-, hnext⟩ | ⟨r', cells, -, hnext, hcoherent, hrows, -⟩ |
          ⟨e, r', block, hnext, hcoherent, hrows, -⟩
        · rw [hnext]
          exact ⟨h, rfl⟩
        · rw [hnext]
          exact ⟨hcoherent, hrows⟩
        · rw [hnext]
          exact ⟨hcoherent, hrows⟩

/-- All calls keep the columns aligned, or one of them stuck. -/
theorem Coherent.after (h : Coherent columns r) (calls : List Call) :
    Coherent columns (after calls r) ∧ (RowScan.after calls r).numRows = r.numRows := by
  induction calls generalizing r with
  | nil => exact ⟨h, rfl⟩
  | cons call calls ih =>
      obtain ⟨hrun, hrows⟩ := h.run call
      obtain ⟨hafter, hrows'⟩ := ih hrun
      exact ⟨hafter, hrows'.trans hrows⟩

end RowScan

/-! ## Segments -/

/-- A scan of rows has a scan of each column at its first row. -/
theorem Segment.rows_eq_ok {segment : Segment} {options : ReadOptions} {scan : RowScan}
    (h : segment.rows options = .ok scan) :
    ∃ columns : List Column, columns.length = segment.numColumns ∧
      (∀ k c, columns[k]? = some c → segment.column k options = .ok c) ∧
      scan = { columns := columns.map Column.scan, numRows := segment.numRows } := by
  obtain ⟨columns, hcolumns, h⟩ := of_bind_eq_ok h
  have hall := of_mapM_eq_ok hcolumns
  cases h
  refine ⟨columns, ?_, fun k c hk => ?_, rfl⟩
  · rw [← hall.length_eq, List.length_range]
  · obtain ⟨id, hid, hcolumn⟩ := forall₂_getElem? hall hk
    obtain ⟨hlt, heq⟩ := List.getElem?_eq_some_iff.mp hid
    rw [List.getElem_range] at heq
    exact heq ▸ hcolumn

theorem Segment.opensFrom_of_column {segment : Segment} {options : ReadOptions} {k : ℕ}
    {c : Column} (h : segment.column k options = .ok c) :
    ∃ entry, segment.footer.columns[k]? = some entry ∧
      Column.OpensFrom options entry segment.numRows segment.file c := by
  unfold Segment.column at h
  cases hentry : segment.footer.columns[k]? with
  | none => rw [hentry] at h; cases h
  | some entry =>
      rw [hentry] at h
      exact ⟨entry, rfl, Column.of_open_eq_ok h⟩

theorem Segment.rows_coherent {segment : Segment} {options : ReadOptions} {columns : List Column}
    (hlen : columns.length = segment.numColumns) (hpos : 0 < segment.numColumns)
    (hcolumns : ∀ k c, columns[k]? = some c → segment.column k options = .ok c) :
    RowScan.Coherent columns
      { columns := columns.map Column.scan, numRows := segment.numRows } := by
  have hlevel : List.Forall₂ (RowScan.Level segment.numRows 0) columns
      (columns.map Column.scan) := by
    refine RowScan.level_scans fun c hc => ?_
    obtain ⟨k, hk⟩ := List.mem_iff_getElem?.mp hc
    obtain ⟨entry, -, hopens⟩ := Segment.opensFrom_of_column (hcolumns k c hk)
    exact ⟨hopens.indexed, hopens.numRows_eq⟩
  exact ⟨List.ne_nil_of_length_pos (hlen ▸ hpos), RowScan.stands_of_level hlevel, Nat.zero_le _,
    .inl hlevel⟩

/-- A batch of rows has in each column the cells of the rows from the ordinal on. -/
theorem Segment.next_read {segment : Segment} {options : ReadOptions} {columns : List Column}
    (hlen : columns.length = segment.numColumns)
    (hcolumns : ∀ k c, columns[k]? = some c → segment.column k options = .ok c)
    {r r' : RowScan} (h : RowScan.Coherent columns r) (hrows : r.numRows = segment.numRows)
    {limit n : ℕ} {earlier block : RowBlock}
    (hnext : RowScan.next limit (r, earlier) = .ok (.read n) (r', block)) :
    n = min limit (segment.numRows - r.ordinal) ∧ r'.ordinal = r.ordinal + n ∧
      block.columns.length = segment.numColumns ∧
      ∀ k cells, block.columns[k]? = some cells →
        ∃ column, segment.column k options = .ok column ∧ cells.length = n ∧
          ∀ j cell, cells[j]? = some cell → column.HasCell (r.ordinal + j) cell := by
  have hlimit := RowScan.limit_pos hnext
  rcases h.next_cases hlimit earlier with
    ⟨-, hrun⟩ | ⟨r₁, found, -, hrun, -, -, hordinal, -, hfound⟩ | ⟨e, r₁, block', hrun, -⟩
  · rw [hrun] at hnext
    cases hnext
  · rw [hrun] at hnext
    cases hnext
    rw [hrows] at hordinal hfound ⊢
    refine ⟨rfl, hordinal, hfound.length_eq.symm.trans hlen, fun k cells hk => ?_⟩
    obtain ⟨column, hcolumn, hcells⟩ := forall₂_getElem? hfound hk
    obtain ⟨hsize, hcell⟩ := Column.getElem?_of_cellsFrom hcells
    obtain ⟨entry, -, hopens⟩ := Segment.opensFrom_of_column (hcolumns k column hcolumn)
    refine ⟨column, hcolumns k column hcolumn, hsize, fun j cell hj => ?_⟩
    obtain ⟨hj', -⟩ := List.getElem?_eq_some_iff.mp hj
    have hin : r.ordinal + j < column.numRows := by
      rw [hopens.numRows_eq]
      omega
    exact (hopens.indexed.cellAt_eq_ok_iff hin).mp (hcell j cell hj)
  · rw [hrun] at hnext
    cases hnext

/-- After any calls, be it that some of them failed, a batch of rows has all rows that are asked for
and are there, from the ordinal on: each of its columns has the cells of these rows. There is no
such batch only at the end. -/
theorem rows_aligned {segment : Segment} {options : ReadOptions} {scan : RowScan}
    (hpos : 0 < segment.numColumns) (hscan : segment.rows options = .ok scan)
    (calls : List RowScan.Call) (limit : ℕ) (earlier : RowBlock) :
    let r := RowScan.after calls scan
    (∀ n r' block, RowScan.next limit (r, earlier) = .ok (.read n) (r', block) →
      n = min limit (segment.numRows - r.ordinal) ∧ r'.ordinal = r.ordinal + n ∧
        block.columns.length = segment.numColumns ∧
        ∀ k cells, block.columns[k]? = some cells →
          ∃ column, segment.column k options = .ok column ∧ cells.length = n ∧
            ∀ j cell, cells[j]? = some cell → column.HasCell (r.ordinal + j) cell) ∧
      ∀ state, RowScan.next limit (r, earlier) = .ok .endOfData state →
        segment.numRows ≤ r.ordinal := by
  intro r
  obtain ⟨columns, hlen, hcolumns, rfl⟩ := Segment.rows_eq_ok hscan
  obtain ⟨hcoherent, hrows⟩ := (Segment.rows_coherent hlen hpos hcolumns).after calls
  refine ⟨fun n r' block hnext => Segment.next_read hlen hcolumns hcoherent hrows hnext,
    fun state hnext => ?_⟩
  have hlimit := RowScan.limit_pos hnext
  change r.numRows = segment.numRows at hrows
  rw [← hrows]
  rcases hcoherent.next_cases hlimit earlier with
    ⟨hend, -⟩ | ⟨_, _, -, hrun, -⟩ | ⟨_, _, _, hrun, -⟩
  · exact hend
  · rw [hrun] at hnext
    cases hnext
  · rw [hrun] at hnext
    cases hnext

attribute [local instance] Lz4.matcher

/-- Two columns with one row to a page; the second page of the second column is damaged. After a
seek to that row has failed, another one brings the columns together again. -/
theorem rows_aligned_damaged :
    let schema : Schema := {
      columns := [{ uniqueId := 1, name := "a", type := .int },
        { uniqueId := 2, name := "b", type := .int }]
      shortKeys := 0
      nonempty := by decide
      distinct := by decide
      keysFirst := by decide
      shortKeys_le := by decide }
    let options : SegmentOptions := { maxRowsPerPage := 1, compression := .none }
    let rows : List Row := [[some (.int32 1), some (.int32 4)], [some (.int32 2), some (.int32 5)]]
    let calls : List RowScan.Call := [.seek 1, .next 1 ⟨[]⟩, .seek 0]
    ∃ file segment scan, SegmentWriter.Writes 0 schema options #[] rows file ∧
      Segment.open (.memory (file.set! 45 2)) = .ok segment ∧ 0 < segment.numColumns ∧
      segment.rows {} = .ok scan ∧
      let r := RowScan.after calls scan
      r.ordinal = 0 ∧ ∃ r' block, RowScan.next 1 (r, ⟨[]⟩) = .ok (.read 1) (r', block) ∧
        r'.ordinal = 1 ∧ block.columns.length = segment.numColumns ∧
        ∀ k cells, block.columns[k]? = some cells →
          ∃ column, segment.column k {} = .ok column ∧ cells.length = 1 ∧
            ∀ j cell, cells[j]? = some cell → column.HasCell (0 + j) cell := by
  intro schema options rows calls
  have hrun : ((SegmentWriter.written? 0 schema options #[] rows).bind fun file =>
      (Segment.open (.memory (file.set! 45 2))).toOption.bind fun segment =>
        (segment.rows {}).toOption.map fun scan =>
          let r := RowScan.after calls scan
          (segment.numColumns, r.ordinal,
            (outcome? (RowScan.next 1 (r, ⟨[]⟩))).map fun found => (found.1, found.2.1.ordinal))) =
        some (2, 0, some (.read 1, 1)) := by
    decide +kernel
  obtain ⟨file, hfile, hrun⟩ := Option.bind_eq_some_iff.mp hrun
  obtain ⟨segment, hsegment, hrun⟩ := Option.bind_eq_some_iff.mp hrun
  obtain ⟨scan, hscan, hrun⟩ := Option.map_eq_some_iff.mp hrun
  obtain ⟨hcolumns, hrun⟩ := Prod.mk.inj hrun
  obtain ⟨hordinal, hnext⟩ := Prod.mk.inj hrun
  obtain ⟨⟨status, r', block⟩, hnext, hfound⟩ := Option.map_eq_some_iff.mp hnext
  obtain ⟨rfl, hordinal'⟩ := Prod.mk.inj hfound
  have hnext := eq_ok_of_outcome? hnext
  have hpos : 0 < segment.numColumns := by omega
  obtain ⟨-, -, hlen, hcells⟩ := (rows_aligned hpos (eq_ok_of_toOption hscan) calls 1 ⟨[]⟩).1 1 r'
    block hnext
  rw [hordinal] at hcells
  exact ⟨file, segment, scan, SegmentWriter.writes_iff.mpr hfile, eq_ok_of_toOption hsegment, hpos,
    eq_ok_of_toOption hscan, hordinal, r', block, hnext, hordinal', hlen, hcells⟩

end Columnar
