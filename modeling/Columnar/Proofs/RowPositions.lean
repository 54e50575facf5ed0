import Columnar.Lz4.Matcher
import Columnar.Proofs.RowAlignment

/-! # Where failed calls leave the columns

A call that fails does not move the scan of rows, but it may move scans of columns. This holds of
files that change while they are read as well: a page that is kept then need not be one of the file
any more, but it still has the rows that it should have. -/

namespace Columnar

/-! ## Columns of a file that changes -/

/-- The page has as many cells as the ordinal index says. -/
def CachedPage.Spans (c : Column) (page : CachedPage) : Prop :=
  c.index.range? page.index = some (page.first, page.first + page.cells.size)

namespace Scan

/-- The column has its index, and the page that is kept spans its rows. -/
structure Steady (s : Scan) : Prop where
  indexed : s.column.Indexed
  spans : ∀ page ∈ s.cached, page.Spans s.column
  ordinal_le : s.ordinal ≤ s.column.numRows

variable {s s' : Scan} {limit : ℕ}

theorem Steady.keep (h : s.Steady) {page : CachedPage} (hpage : page.Spans s.column) {ordinal : ℕ}
    (hle : ordinal ≤ s.column.numRows) : Steady { s with ordinal, cached := some page } :=
  ⟨h.indexed, fun p hp => by
    obtain rfl := Option.some.inj hp
    exact hpage, hle⟩

theorem Steady.drop (h : s.Steady) {ordinal : ℕ} (hle : ordinal ≤ s.column.numRows) :
    Steady { s with ordinal, cached := none } :=
  ⟨h.indexed, by simp, hle⟩

/-- Loading gives a page with the row and keeps it, or fails and keeps none. -/
theorem load_cases (h : s.column.Indexed) (hspans : ∀ page ∈ s.cached, page.Spans s.column)
    {ordinal : ℕ} (hord : ordinal < s.column.numRows) :
    (∃ page, load ordinal s = .ok page { s with cached := some page } ∧ page.Spans s.column ∧
        page.first ≤ ordinal ∧ ordinal < page.first + page.cells.size) ∨
      ∃ e, load ordinal s = .error e { s with cached := none } := by
  have hreload : (∃ page, reload ordinal s = .ok page { s with cached := some page } ∧
      page.Spans s.column ∧ page.first ≤ ordinal ∧ ordinal < page.first + page.cells.size) ∨
        ∃ e, reload ordinal s = .error e { s with cached := none } := by
    obtain ⟨first, stop, hrange, hfirst, hstop⟩ :=
      OrdinalIndex.findPage_spec h.ordered (h.rows ▸ hord)
    rw [reload]
    cases hread : s.column.readPage (s.column.index.findPage ordinal) with
    | error e => exact .inr ⟨e, rfl⟩
    | ok cells =>
        have hlen := Column.length_of_readPage hrange hread
        have hend : first + cells.toArray.size = stop := by
          rw [List.size_toArray, hlen]
          omega
        refine .inl ⟨⟨s.column.index.findPage ordinal, first, cells.toArray⟩, ?_, ?_, hfirst,
          hend.symm ▸ hstop⟩
        · rw [(OrdinalIndex.range?_eq_some hrange).1]
          rfl
        · rw [CachedPage.Spans, hend]
          exact hrange
  rw [load]
  cases hcached : s.cached with
  | none => exact hreload
  | some page =>
      by_cases hhit : page.contains ordinal = true
      · have hpage := hspans page hcached
        simp only [if_pos hhit]
        rw [CachedPage.contains, Bool.and_eq_true, decide_eq_true_eq, decide_eq_true_eq] at hhit
        exact .inl ⟨page, by rw [← hcached], hpage, hhit⟩
      · simp only [if_neg hhit]
        exact hreload

/-- A scan moves as far as it puts cells into the output. -/
theorem Steady.fill (h : s.Steady) {want : ℕ} (hrows : s.ordinal + want ≤ s.column.numRows)
    (output : Array Cell) :
    ∃ s' taken, Steady s' ∧ s'.column = s.column ∧ s'.ordinal = s.ordinal + taken.size ∧
      ((taken.size = want ∧ Scan.fill want s output = .ok () (s', output ++ taken)) ∨
        ∃ e, taken.size < want ∧ Scan.fill want s output = .error e (s', output ++ taken)) := by
  induction want using Nat.strong_induction_on generalizing s output with
  | _ want ih =>
      rw [Scan.fill]
      by_cases hwant : want = 0
      · exact ⟨s, #[], h, rfl, rfl, .inl ⟨hwant.symm, by simp [hwant]⟩⟩
      · rw [if_neg hwant]
        have hord : s.ordinal < s.column.numRows := by omega
        rcases load_cases h.indexed h.spans hord with
          ⟨page, hload, hpage, hfirst, hstop⟩ | ⟨e, hload⟩
        · let cells := page.cellsFrom s.ordinal want
          have hcells : cells.size = min want (page.first + page.cells.size - s.ordinal) := by
            simp only [cells, CachedPage.cellsFrom, Array.size_extract]
            omega
          have hafter : s.ordinal + cells.size ≤ s.column.numRows := by omega
          have hkeep := h.keep hpage hafter
          obtain ⟨s', taken, hs', hcolumn, hordinal, hend⟩ :=
            ih (want - cells.size) (by omega) hkeep (by simp only; omega) (output ++ cells)
          refine ⟨s', cells ++ taken, hs', hcolumn, ?_, ?_⟩
          · rw [hordinal, Array.size_append, Nat.add_assoc]
          · rw [hload]
            simp only
            rw [dif_pos (by omega : 0 < cells.size), ← Array.append_assoc, Array.size_append]
            rcases hend with ⟨hsize, hfill⟩ | ⟨e, hsize, hfill⟩
            · exact .inl ⟨by omega, hfill⟩
            · exact .inr ⟨e, by omega, hfill⟩
        · refine ⟨_, #[], h.drop h.ordinal_le, rfl, rfl, .inr ⟨e, Nat.pos_of_ne_zero hwant, ?_⟩⟩
          rw [hload, Array.append_empty]

/-- After a batch, be it that it failed, the scan stands behind the cells that it gave. -/
theorem Steady.next (h : s.Steady) (hlimit : 0 < limit) (earlier : Array Cell) :
    ∃ s' cells, Steady s' ∧ s'.column = s.column ∧ s'.ordinal = s.ordinal + cells.size ∧
      let n := min limit (s.column.numRows - s.ordinal)
      ((∃ status, cells.size = n ∧ Scan.next limit (s, earlier) = .ok status (s', cells)) ∨
        ∃ e, cells.size < n ∧ Scan.next limit (s, earlier) = .error e (s', cells)) := by
  have hle := h.ordinal_le
  have hrows : s.ordinal + min limit (s.column.numRows - s.ordinal) ≤ s.column.numRows := by omega
  obtain ⟨s', cells, hs', hcolumn, hordinal, hend⟩ := h.fill hrows #[]
  rw [Array.empty_append] at hend
  refine ⟨s', cells, hs', hcolumn, hordinal, ?_⟩
  simp only [Scan.next, if_neg (Nat.ne_of_gt hlimit)]
  rcases hend with ⟨hsize, hfill⟩ | ⟨e, hsize, hfill⟩
  · exact .inl ⟨_, hsize, by rw [hfill]⟩
  · exact .inr ⟨e, hsize, by rw [hfill]⟩

/-- After a seek, be it that it failed, the scan stands where it was sent, unless it was sent past
the end. -/
theorem Steady.seek (h : s.Steady) (target : ℕ) :
    (s.column.numRows < target ∧ ∃ e, Scan.seek target s = .error e s) ∨
      target ≤ s.column.numRows ∧ ∃ s', Steady s' ∧ s'.column = s.column ∧ s'.ordinal = target ∧
        (Scan.seek target s = .ok () s' ∨ ∃ e, Scan.seek target s = .error e s') := by
  rw [seek_eq]
  by_cases hpast : s.column.numRows < target
  · rw [if_pos hpast]
    exact .inl ⟨hpast, _, rfl⟩
  · have hle : target ≤ s.column.numRows := by omega
    rw [if_neg hpast]
    refine .inr ⟨hle, ?_⟩
    by_cases hin : target < s.column.numRows
    · rw [if_pos hin]
      rcases load_cases (s := { s with ordinal := target }) h.indexed h.spans hin with
        ⟨page, hload, hpage, -⟩ | ⟨e, hload⟩
      · exact ⟨_, h.keep hpage hle, rfl, rfl, .inl (by rw [hload])⟩
      · exact ⟨_, h.drop hle, rfl, rfl, .inr ⟨e, by rw [hload]⟩⟩
    · rw [if_neg hin]
      exact ⟨{ s with ordinal := target }, ⟨h.indexed, h.spans, hle⟩, rfl, rfl, .inl rfl⟩

end Scan

/-! ## Columns side by side -/

namespace RowScan

/-- Where each column stands. -/
def positions (r : RowScan) : List ℕ := r.columns.map (·.ordinal)

/-- All columns are steady and have as many rows. -/
def Steady (numRows : ℕ) (scans : List Scan) : Prop :=
  ∀ s ∈ scans, s.Steady ∧ s.column.numRows = numRows

variable {numRows limit target : ℕ} {scans : List Scan}

theorem steady_cons {s : Scan} :
    Steady numRows (s :: scans) ↔
      (s.Steady ∧ s.column.numRows = numRows) ∧ Steady numRows scans :=
  List.forall_mem_cons

theorem seekAll_refused (h : Steady numRows scans) (hne : scans ≠ [])
    (hpast : numRows < target) : ∃ e, seekAll target scans = .error e scans := by
  obtain ⟨s, scans, rfl⟩ := List.exists_cons_of_ne_nil hne
  obtain ⟨⟨hs, rfl⟩, -⟩ := steady_cons.mp h
  rcases hs.seek target with ⟨-, e, hseek⟩ | ⟨hwrong, -⟩
  · exact ⟨e, by rw [seekAll, hseek]⟩
  · omega

/-- A seek that fails has moved the columns up to the one that failed. -/
theorem seekAll_steady (h : Steady numRows scans) (hle : target ≤ numRows) :
    ∃ scans', Steady numRows scans' ∧
      ((∃ e moved, 0 < moved ∧ moved ≤ scans.length ∧ seekAll target scans = .error e scans' ∧
          scans'.map (·.ordinal) =
            (scans.take moved).map (fun _ => target) ++ (scans.drop moved).map (·.ordinal)) ∨
        seekAll target scans = .ok () scans') := by
  induction scans with
  | nil => exact ⟨[], h, .inr rfl⟩
  | cons s scans ih =>
      obtain ⟨⟨hs, rfl⟩, hscans⟩ := steady_cons.mp h
      simp only [seekAll]
      rcases hs.seek target with
        ⟨hpast, -⟩ | ⟨-, s', hs', hcolumn, rfl, hseek | ⟨e, hseek⟩⟩
      · omega
      · obtain ⟨scans', hscans', hrest⟩ := ih hscans
        rw [hseek]
        refine ⟨s' :: scans', steady_cons.mpr ⟨⟨hs', congrArg _ hcolumn⟩, hscans'⟩, ?_⟩
        rcases hrest with ⟨e, moved, -, hle, hrun, hpositions⟩ | hrun
        · exact .inl ⟨e, moved + 1, Nat.succ_pos _, Nat.succ_le_succ hle, by rw [hrun],
            by simp [hpositions]⟩
        · exact .inr (by rw [hrun])
      · rw [hseek]
        exact ⟨s' :: scans, steady_cons.mpr ⟨⟨hs', congrArg _ hcolumn⟩, hscans⟩,
          .inl ⟨e, 1, Nat.one_pos, by simp, rfl, by simp⟩⟩

/-- After a batch, be it that it failed, each column stands behind the cells that it gave. -/
theorem nextAll_steady (h : Steady numRows scans) (hlimit : 0 < limit) :
    ∀ (expected : Option ℕ) (position : ℕ), ∃ scans' cells, Steady numRows scans' ∧
      cells.length = scans.length ∧
      scans'.map (·.ordinal) =
        List.zipWith (fun s (found : List Cell) => s.ordinal + found.length) scans cells ∧
      ((∃ produced, nextAll limit position expected scans = .ok produced (scans', cells)) ∨
        ∃ e, nextAll limit position expected scans = .error e (scans', cells)) := by
  induction scans with
  | nil => exact fun expected position => ⟨[], [], h, rfl, rfl, .inl ⟨expected, rfl⟩⟩
  | cons s scans ih =>
      intro expected position
      obtain ⟨⟨hs, rfl⟩, hscans⟩ := steady_cons.mp h
      have huntouched : scans.map (·.ordinal) =
          List.zipWith (fun s (found : List Cell) => s.ordinal + found.length) scans
            (scans.map fun _ => []) := by
        rw [List.zipWith_map_right, List.zipWith_self]
        rfl
      obtain ⟨s', found, hs', hcolumn, hordinal, hend⟩ := hs.next hlimit #[]
      simp only [nextAll]
      rcases hend with ⟨status, -, hnext⟩ | ⟨e, -, hnext⟩
      · rw [hnext]
        by_cases huneven : expected.any (· ≠ found.size) = true
        · refine ⟨s' :: scans, found.toList :: scans.map fun _ => [],
            steady_cons.mpr ⟨⟨hs', congrArg _ hcolumn⟩, hscans⟩, by simp, ?_,
            .inr ⟨_, if_pos huneven⟩⟩
          rw [List.map_cons, List.zipWith_cons_cons, ← huntouched, hordinal, Array.length_toList]
        · obtain ⟨scans', cells, hscans', hlen, hpositions, hrest⟩ :=
            ih hscans (some found.size) (position + 1)
          refine ⟨s' :: scans', found.toList :: cells,
            steady_cons.mpr ⟨⟨hs', congrArg _ hcolumn⟩, hscans'⟩, by simp [hlen], ?_, ?_⟩
          · simp [hordinal, hpositions]
          · simp only [if_neg huneven]
            rcases hrest with ⟨produced, hrun⟩ | ⟨e, hrun⟩
            · exact .inl ⟨produced, by rw [hrun]⟩
            · exact .inr ⟨e, by rw [hrun]⟩
      · rw [hnext]
        refine ⟨s' :: scans, found.toList :: scans.map fun _ => [],
          steady_cons.mpr ⟨⟨hs', congrArg _ hcolumn⟩, hscans⟩, by simp, ?_, .inr ⟨e, rfl⟩⟩
        rw [List.map_cons, List.zipWith_cons_cons, ← huntouched, hordinal, Array.length_toList]

/-! ## Reachable scans -/

variable {r r' : RowScan}

/-- The scan after what its file holds was replaced. -/
def replaceFile (bytes : Array UInt8) (r : RowScan) : RowScan :=
  { r with columns := r.columns.map fun s =>
      { s with column := { s.column with file := s.column.file.replace bytes } } }

/-- What happens to a scan of rows. -/
inductive Event
  | call (asked : Call)
  | replaced (bytes : Array UInt8)

def Event.run : Event → RowScan → RowScan
  | .call asked, r => asked.run r
  | .replaced bytes, r => r.replaceFile bytes

/-- The scan after events, one after the other. -/
def reached (events : List Event) (r : RowScan) : RowScan :=
  events.foldl (fun r event => event.run r) r

/-- The call fails and leaves the second scan. -/
def Call.Fails : Call → RowScan → RowScan → Prop
  | .seek ordinal, r, r' => ∃ e, RowScan.seek ordinal r = .error e r'
  | .next limit earlier, r, r' =>
    ∃ e block, RowScan.next limit (r, earlier) = .error e (r', block)

theorem Call.Fails.run_eq {call : Call} (h : call.Fails r r') : call.run r = r' := by
  cases call with
  | seek target =>
      obtain ⟨e, hrun⟩ := h
      simp only [Call.run, hrun]
  | next limit earlier =>
      obtain ⟨e, block, hrun⟩ := h
      simp only [Call.run, hrun]

/-- A seek that fails leaves the ordinal. Columns up to the one that failed have moved, unless the
seek was refused. -/
theorem seek_error (h : Steady r.numRows r.columns) {e : Error}
    (hrun : RowScan.seek target r = .error e r') :
    r'.ordinal = r.ordinal ∧ r'.numRows = r.numRows ∧ Steady r'.numRows r'.columns ∧
      ((r.numRows < target ∧ r' = r) ∨ (target ≤ r.numRows ∧ ∃ moved, 0 < moved ∧
        moved ≤ r.columns.length ∧ r'.positions =
          (r.columns.take moved).map (fun _ => target) ++ r.positions.drop moved)) := by
  rw [RowScan.seek] at hrun
  rcases Nat.lt_or_ge r.numRows target with hpast | hle
  · rcases eq_or_ne r.columns [] with hnil | hne
    · rw [hnil] at hrun
      cases hrun
    · obtain ⟨e', hall⟩ := seekAll_refused h hne hpast
      rw [hall] at hrun
      cases hrun
      exact ⟨rfl, rfl, h, .inl ⟨hpast, rfl⟩⟩
  · obtain ⟨scans', hscans', ⟨e', moved, hpos, hlen, hall, hpositions⟩ | hall⟩ :=
      seekAll_steady h hle
    · rw [hall] at hrun
      cases hrun
      refine ⟨rfl, rfl, hscans', .inr ⟨hle, moved, hpos, hlen, ?_⟩⟩
      rw [positions, positions, hpositions, List.map_drop]
    · rw [hall] at hrun
      cases hrun

/-- A batch that fails leaves the ordinal. Each column stands behind the cells that it gave. -/
theorem next_error (h : Steady r.numRows r.columns) {earlier block : RowBlock} {e : Error}
    (hrun : RowScan.next limit (r, earlier) = .error e (r', block)) :
    r'.ordinal = r.ordinal ∧ r'.numRows = r.numRows ∧ Steady r'.numRows r'.columns ∧
      block.columns.length = r.columns.length ∧ r'.positions = List.zipWith
        (fun s (found : List Cell) => s.ordinal + found.length) r.columns block.columns := by
  simp only [RowScan.next] at hrun
  split at hrun
  next =>
    cases hrun
    refine ⟨rfl, rfl, h, List.length_replicate, ?_⟩
    rw [RowBlock.empty, ← List.map_const', List.zipWith_map_right, List.zipWith_self]
    rfl
  next hlimit =>
    split at hrun
    next => cases hrun
    next =>
      obtain ⟨scans', cells, hscans', hlen, hpositions, ⟨produced, hall⟩ | ⟨e', hall⟩⟩ :=
        nextAll_steady h (Nat.pos_of_ne_zero hlimit) none 0
      · rw [hall] at hrun
        cases hrun
      · rw [hall] at hrun
        cases hrun
        exact ⟨rfl, rfl, hscans', hlen, hpositions⟩

theorem Steady.call (h : Steady r.numRows r.columns) (call : Call) :
    Steady (call.run r).numRows (call.run r).columns ∧ (call.run r).numRows = r.numRows := by
  cases call with
  | seek target =>
      simp only [Call.run]
      cases hrun : RowScan.seek target r with
      | error e r' =>
          obtain ⟨-, hrows, hsteady, -⟩ := seek_error h hrun
          exact ⟨hsteady, hrows⟩
      | ok _ r' =>
          rw [RowScan.seek] at hrun
          rcases eq_or_ne r.columns [] with hnil | hne
          · rw [hnil] at hrun
            cases hrun
            exact ⟨List.forall_mem_nil _, rfl⟩
          · rcases Nat.lt_or_ge r.numRows target with hpast | hle
            · obtain ⟨e, hall⟩ := seekAll_refused h hne hpast
              rw [hall] at hrun
              cases hrun
            · obtain ⟨scans', hscans', ⟨e, _, -, -, hall, -⟩ | hall⟩ := seekAll_steady h hle
              · rw [hall] at hrun
                cases hrun
              · rw [hall] at hrun
                cases hrun
                exact ⟨hscans', rfl⟩
  | next limit earlier =>
      simp only [Call.run]
      cases hrun : RowScan.next limit (r, earlier) with
      | error e state =>
          obtain ⟨-, hrows, hsteady, -⟩ := next_error h hrun
          exact ⟨hsteady, hrows⟩
      | ok status state =>
          simp only [RowScan.next] at hrun
          split at hrun
          next => cases hrun
          next hlimit =>
            split at hrun
            next =>
              cases hrun
              exact ⟨h, rfl⟩
            next =>
              obtain ⟨scans', cells, hscans', -, -, ⟨produced, hall⟩ | ⟨e, hall⟩⟩ :=
                nextAll_steady h (Nat.pos_of_ne_zero hlimit) none 0
              · rw [hall] at hrun
                cases hrun
                exact ⟨hscans', rfl⟩
              · rw [hall] at hrun
                cases hrun

/-- What the file holds does not matter to it. -/
theorem Steady.replaceFile (h : Steady r.numRows r.columns) (bytes : Array UInt8) :
    Steady (r.replaceFile bytes).numRows (r.replaceFile bytes).columns := by
  intro s hs
  obtain ⟨s, hmem, rfl⟩ := List.mem_map.mp hs
  obtain ⟨⟨hindexed, hspans, hle⟩, hrows⟩ := h s hmem
  exact ⟨⟨⟨hindexed.rows, hindexed.ordered⟩, hspans, hle⟩, hrows⟩

theorem Steady.reached (h : Steady r.numRows r.columns) (events : List Event) :
    Steady (reached events r).numRows (RowScan.reached events r).columns ∧
      (RowScan.reached events r).numRows = r.numRows := by
  induction events generalizing r with
  | nil => exact ⟨h, rfl⟩
  | cons event events ih =>
      have hrun : Steady (event.run r).numRows (event.run r).columns ∧
          (event.run r).numRows = r.numRows := by
        cases event with
        | call asked => exact h.call asked
        | replaced bytes => exact ⟨h.replaceFile bytes, rfl⟩
      obtain ⟨hsteady, hrows⟩ := ih hrun.1
      exact ⟨hsteady, hrows.trans hrun.2⟩

theorem reached_calls (calls : List Call) (r : RowScan) :
    reached (calls.map .call) r = after calls r := by
  rw [reached, List.foldl_map]
  rfl

/-! ## Aligned columns -/

theorem positions_eq (haligned : ∀ s ∈ r.columns, s.ordinal = r.ordinal) :
    r.positions = r.columns.map fun _ => r.ordinal :=
  List.map_congr_left haligned

/-- From one row on, a seek that fails has moved a column, unless it was refused or led to that
row. -/
theorem seek_error_iff (h : Steady r.numRows r.columns)
    (haligned : ∀ s ∈ r.columns, s.ordinal = r.ordinal) {e : Error}
    (hrun : RowScan.seek target r = .error e r') :
    r'.positions = r.positions ↔ r.numRows < target ∨ target = r.ordinal := by
  obtain ⟨-, -, -, ⟨hpast, rfl⟩ | ⟨hle, moved, hpos, hlen, hpositions⟩⟩ := seek_error h hrun
  · exact ⟨fun _ => .inl hpast, fun _ => rfl⟩
  · rw [hpositions, positions_eq haligned]
    constructor
    · intro heq
      obtain ⟨moved, rfl⟩ := Nat.exists_eq_succ_of_ne_zero (Nat.ne_of_gt hpos)
      cases hcolumns : r.columns with
      | nil =>
          rw [hcolumns] at hlen
          exact absurd hlen (Nat.not_succ_le_zero _)
      | cons s scans =>
          rw [hcolumns] at heq
          exact .inr (List.cons.inj heq).1
    · rintro (hpast | rfl)
      · omega
      · rw [← List.map_drop, ← List.map_append, List.take_append_drop]

theorem next_error_iff (h : Steady r.numRows r.columns)
    (haligned : ∀ s ∈ r.columns, s.ordinal = r.ordinal) {earlier block : RowBlock} {e : Error}
    (hrun : RowScan.next limit (r, earlier) = .error e (r', block)) :
    r'.positions = block.columns.map (fun cells => r.ordinal + cells.length) ∧
      (r'.positions = r.positions ↔ ∀ cells ∈ block.columns, cells = []) := by
  obtain ⟨-, -, -, hlen, hpositions⟩ := next_error h hrun
  have hmoved : r'.positions = block.columns.map fun cells => r.ordinal + cells.length := by
    rw [hpositions]
    refine List.ext_getElem (by simp [hlen]) fun i hi hi' => ?_
    simp [haligned _ (List.getElem_mem _)]
  have hstill : r.positions = block.columns.map fun _ => r.ordinal := by
    rw [positions_eq haligned, List.map_const', List.map_const', hlen]
  refine ⟨hmoved, ?_⟩
  rw [hmoved, hstill, List.map_inj_left]
  refine forall₂_congr fun cells _ => ?_
  rw [Nat.add_eq_left, List.length_eq_zero_iff]

end RowScan

/-- From a state in which all columns stand at the ordinal, whatever came before and whatever became
of the file: a call that fails leaves the ordinal. After a seek all columns stand where they stood
exactly if it was refused or led to the ordinal itself. After a batch each column stands behind the
cells that it gave, so that all stand where they stood exactly if nothing came out. As long as the
file is not replaced, the next batch that comes out goes on at the ordinal. -/
theorem failed_call_positions {segment : Segment} {options : ReadOptions} {scan : RowScan}
    (hpos : 0 < segment.numColumns) (hscan : segment.rows options = .ok scan)
    (events : List RowScan.Event)
    (haligned : ∀ s ∈ (RowScan.reached events scan).columns,
      s.ordinal = (RowScan.reached events scan).ordinal) :
    let r := RowScan.reached events scan
    (∀ target e r', RowScan.seek target r = .error e r' →
      r'.ordinal = r.ordinal ∧
        (r'.positions = r.positions ↔ segment.numRows < target ∨ target = r.ordinal)) ∧
      (∀ limit earlier e r' block, RowScan.next limit (r, earlier) = .error e (r', block) →
        r'.ordinal = r.ordinal ∧
          r'.positions = block.columns.map (fun cells => r.ordinal + cells.length) ∧
          (r'.positions = r.positions ↔ ∀ cells ∈ block.columns, cells = [])) ∧
      ∀ calls : List RowScan.Call, events = calls.map .call →
        ∀ call : RowScan.Call, ∀ r', call.Fails r r' → ∀ limit earlier n r'' block,
          RowScan.next limit (r', earlier) = .ok (.read n) (r'', block) →
          ∀ k cells, block.columns[k]? = some cells →
            ∃ column, segment.column k options = .ok column ∧
              ∀ j cell, cells[j]? = some cell → column.HasCell (r.ordinal + j) cell := by
  intro r
  obtain ⟨columns, hlen, hcolumns, rfl⟩ := Segment.rows_eq_ok hscan
  have hcoherent := Segment.rows_coherent hlen hpos hcolumns
  have hstart : RowScan.Steady segment.numRows (columns.map Column.scan) := by
    intro s hs
    obtain ⟨c, hc, rfl⟩ := List.mem_map.mp hs
    obtain ⟨k, hk⟩ := List.mem_iff_getElem?.mp hc
    obtain ⟨entry, -, hopens⟩ := Segment.opensFrom_of_column (hcolumns k c hk)
    exact ⟨⟨hopens.indexed, by simp [Column.scan], Nat.zero_le _⟩, hopens.numRows_eq⟩
  obtain ⟨hsteady, hrows⟩ := RowScan.Steady.reached
    (r := { columns := columns.map Column.scan, numRows := segment.numRows }) hstart events
  refine ⟨fun target e r' hrun => ⟨(RowScan.seek_error hsteady hrun).1, ?_⟩,
    fun limit earlier e r' block hrun => ⟨(RowScan.next_error hsteady hrun).1,
      RowScan.next_error_iff hsteady haligned hrun⟩, ?_⟩
  · rw [← show r.numRows = segment.numRows from hrows]
    exact RowScan.seek_error_iff hsteady haligned hrun
  · rintro calls rfl call r' hfails limit earlier n r'' block hnext k cells hk
    have hafter := hcoherent.after calls
    rw [← RowScan.reached_calls] at hafter
    have hordinal : r'.ordinal = r.ordinal := by
      cases call with
      | seek target =>
          obtain ⟨e, hrun⟩ := hfails
          exact (RowScan.seek_error hsteady hrun).1
      | next limit earlier =>
          obtain ⟨e, block', hrun⟩ := hfails
          exact (RowScan.next_error hsteady hrun).1
    obtain ⟨hrun, hrows'⟩ := hafter.1.run call
    rw [hfails.run_eq] at hrun hrows'
    obtain ⟨-, -, -, hcells⟩ := Segment.next_read hlen hcolumns hrun (hrows'.trans hafter.2) hnext
    obtain ⟨column, hcolumn, -, hcell⟩ := hcells k cells hk
    rw [hordinal] at hcell
    exact ⟨column, hcolumn, hcell⟩

attribute [local instance] Lz4.matcher

/-- The second of two columns cannot be read while the file is cut short behind the first one. -/
theorem failed_call_positions_cut :
    let schema : Schema := {
      columns := [{ uniqueId := 1, name := "a", type := .int },
        { uniqueId := 2, name := "b", type := .int }]
      shortKeys := 0
      nonempty := by decide
      distinct := by decide
      keysFirst := by decide
      shortKeys_le := by decide }
    let rows : List Row := [[some (.int32 10), some (.int32 20)]]
    ∃ file segment scan, SegmentWriter.Writes 0 schema { compression := .none } #[] rows file ∧
      Segment.open (.onDisk file) = .ok segment ∧ 0 < segment.numColumns ∧
      segment.rows {} = .ok scan ∧
      let r := RowScan.reached [.replaced (file.extract 0 15)] scan
      (∀ s ∈ r.columns, s.ordinal = r.ordinal) ∧
        ∃ e r' block, RowScan.next 1 (r, ⟨[]⟩) = .error e (r', block) ∧ r'.ordinal = r.ordinal ∧
          r'.positions = block.columns.map (fun cells => r.ordinal + cells.length) ∧
            (r'.positions = r.positions ↔ ∀ cells ∈ block.columns, cells = []) := by
  intro schema rows
  have hrun : ((SegmentWriter.written? 0 schema { compression := .none } #[] rows).bind fun file =>
      (Segment.open (.onDisk file)).toOption.bind fun segment =>
        (segment.rows {}).toOption.bind fun scan =>
          let r := RowScan.reached [.replaced (file.extract 0 15)] scan
          (failure? (RowScan.next 1 (r, ⟨[]⟩))).map fun _ =>
            (segment.numColumns, r.columns.all (·.ordinal = r.ordinal))) = some (2, true) := by
    decide +kernel
  obtain ⟨file, hfile, hrun⟩ := Option.bind_eq_some_iff.mp hrun
  obtain ⟨segment, hsegment, hrun⟩ := Option.bind_eq_some_iff.mp hrun
  obtain ⟨scan, hscan, hrun⟩ := Option.bind_eq_some_iff.mp hrun
  obtain ⟨⟨e, r', block⟩, hfails, hfound⟩ := Option.map_eq_some_iff.mp hrun
  obtain ⟨hcolumns, haligned⟩ := Prod.mk.inj hfound
  have hscan := eq_ok_of_toOption hscan
  have hnext := eq_error_of_failure? hfails
  have hpos : 0 < segment.numColumns := by omega
  have haligned : ∀ s ∈ (RowScan.reached [.replaced (file.extract 0 15)] scan).columns,
      s.ordinal = (RowScan.reached [.replaced (file.extract 0 15)] scan).ordinal := by
    simpa only [List.all_eq_true, decide_eq_true_eq] using haligned
  exact ⟨file, segment, scan, SegmentWriter.writes_iff.mpr hfile, eq_ok_of_toOption hsegment, hpos,
    hscan, haligned, e, r', block, hnext,
    (failed_call_positions hpos hscan _ haligned).2.1 1 ⟨[]⟩ e r' block hnext⟩

/-- After that the first column is a row ahead. When the file is whole again, the next batch puts
cells of two rows side by side. -/
theorem failed_batch_moves_column :
    let schema : Schema := {
      columns := [{ uniqueId := 1, name := "a", type := .int },
        { uniqueId := 2, name := "b", type := .int }]
      shortKeys := 0
      nonempty := by decide
      distinct := by decide
      keysFirst := by decide
      shortKeys_le := by decide }
    let options : SegmentOptions := { compression := .none, maxRowsPerPage := 1 }
    let rows : List Row := [[some (.int32 10), some (.int32 20)],
      [some (.int32 11), some (.int32 21)]]
    ∃ file segment scan e r r' block block', SegmentWriter.Writes 0 schema options #[] rows file ∧
      Segment.open (.onDisk file) = .ok segment ∧ segment.rows {} = .ok scan ∧
      (∀ s ∈ scan.columns, s.ordinal = scan.ordinal) ∧
      RowScan.next 1 (scan.replaceFile (file.extract 0 30), ⟨[]⟩) = .error e (r, block) ∧
      e.isCorruption = false ∧ scan.positions = [0, 0] ∧ r.positions = [1, 0] ∧ r.ordinal = 0 ∧
      RowScan.next 1 (r.replaceFile file, ⟨[]⟩) = .ok (.read 1) (r', block') ∧
      block'.rows = [[some (.int32 11), some (.int32 20)]] := by
  intro schema options rows
  have hrun : (SegmentWriter.written? 0 schema options #[] rows).any fun file =>
      (Segment.open (.onDisk file)).toOption.any fun segment =>
        (segment.rows {}).toOption.any fun scan =>
          (failure? (RowScan.next 1 (scan.replaceFile (file.extract 0 30), ⟨[]⟩))).any fun x =>
            (outcome? (RowScan.next 1 (x.2.1.replaceFile file, ⟨[]⟩))).any fun y =>
              (∀ s ∈ scan.columns, s.ordinal = scan.ordinal) ∧ x.1.isCorruption = false ∧
                scan.positions = [0, 0] ∧ x.2.1.positions = [1, 0] ∧ x.2.1.ordinal = 0 ∧
                y.1 = .read 1 ∧ y.2.2.rows = [[some (.int32 11), some (.int32 20)]] := by
    decide +kernel
  obtain ⟨file, hfile, hrun⟩ := (Option.any_eq_true _ _).mp hrun
  obtain ⟨segment, hsegment, hrun⟩ := (Option.any_eq_true _ _).mp hrun
  obtain ⟨scan, hscan, hrun⟩ := (Option.any_eq_true _ _).mp hrun
  obtain ⟨⟨e, r, block⟩, hfails, hrun⟩ := (Option.any_eq_true _ _).mp hrun
  obtain ⟨⟨status, r', block'⟩, hnext, hfound⟩ := (Option.any_eq_true _ _).mp hrun
  obtain ⟨haligned, hcause, hbefore, hafter, hordinal, rfl, hrows⟩ := of_decide_eq_true hfound
  exact ⟨file, segment, scan, e, r, r', block, block', SegmentWriter.writes_iff.mpr hfile,
    eq_ok_of_toOption hsegment, eq_ok_of_toOption hscan, haligned, eq_error_of_failure? hfails,
    hcause, hbefore, hafter, hordinal, eq_ok_of_outcome? hnext, hrows⟩

end Columnar
