import Columnar.Proofs.Machine.Segments
import Columnar.Proofs.RowAlignment
import Columnar.Proofs.ScanRefinement

/-! # Scans as a machine runs them

A scan counts from the first row of the page that it keeps, which holds the row where the scan
stands. So no difference falls below zero, no sum gets past the number of rows, and each round of
the loop of a batch takes a cell at least. -/

namespace Columnar.Machine

/-! ## Pages that are kept -/

/-- Steps that leave the state alone. -/
def still {σ α : Type} (m : Outcome α) : Run σ α := fun s => m.run.map fun outcome => (outcome, s)

theorem still_of_gives {σ α : Type} {m : Outcome α} {x : Except Error α} (h : Gives m x) (s : σ) :
    still m s = some (x, s) := by
  rw [still, h]
  rfl

/-- Steps on one part of a state. -/
def onFirst {σ τ α : Type} (x : Run σ α) : Run (σ × τ) α := fun (s, t) =>
  (x s).map fun (outcome, s) => (outcome, (s, t))

def contains (p : CachedPage) (ordinal : ℕ) : Option Bool :=
  if p.first ≤ ordinal then do
    let stop ← add 64 p.first p.cells.size
    return ordinal < stop
  else return false

def reload (ordinal : ℕ) : Run Scan CachedPage := do
  let s ← get
  let k := s.column.index.findPage ordinal
  set { s with cached := none }
  let cells ← still (readPage s.column k)
  let page : CachedPage := ⟨k, (s.column.index.first? k).getD 0, cells.toArray⟩
  set { s with cached := some page }
  return page

def load (ordinal : ℕ) : Run Scan CachedPage := do
  let s ← get
  match s.cached with
  | some page =>
    let hit ← contains page ordinal
    if hit then return page else reload ordinal
  | none => reload ordinal

def seek (ordinal : ℕ) : Run Scan Unit := do
  let s ← get
  if s.column.numRows < ordinal then throw (.argument (.seek ordinal s.column.numRows))
  set { s with ordinal }
  if ordinal < s.column.numRows then
    let _ ← load ordinal

/-- Takes cells from the page of the next row, as many as are wanted and are there. -/
def round (limit : ℕ) : Run (Scan × Array Cell) Unit := do
  let before ← get
  let page ← onFirst (load before.1.ordinal)
  let (s, output) ← get
  let start ← sub s.ordinal page.first
  let want ← sub limit output.size
  let held ← sub page.cells.size start
  let count := min want held
  let stop ← add 64 start count
  let taken ← slice page.cells.toList start stop
  let ordinal ← add 64 s.ordinal count
  set ({ s with ordinal }, output ++ taken.toArray)

/-- The loop goes on while rows are wanted and there. After a round that took none it would go on
for ever. -/
def fill (limit : ℕ) (state : Scan × Array Cell) : Option (Except Error Unit × Scan × Array Cell) :=
  if state.2.size < limit ∧ state.1.ordinal < state.1.column.numRows then
    match round limit state with
    | none => none
    | some (.error e, state') => some (.error e, state')
    | some (.ok _, state') =>
      if state.2.size < state'.2.size then fill limit state' else none
  else some (.ok (), state)
termination_by limit - state.2.size

def next (limit : ℕ) : Run (Scan × Array Cell) BatchStatus := do
  let (s, _) ← get
  set (s, (#[] : Array Cell))
  if limit = 0 then throw (.argument .emptyBatch)
  if s.column.numRows ≤ s.ordinal then return .endOfData
  (fill limit : Run (Scan × Array Cell) Unit)
  let (_, output) ← get
  return if output.isEmpty then .endOfData else .read output.size

section

variable {bytes : Array UInt8} {c : Column} {s s' : Scan} {ordinal : ℕ}

/-- The rows of a page that is kept are rows of the column, so their end is a word. -/
theorem contains_eq {page : CachedPage} (h : page.Of c) (hindexed : c.Indexed) (target : ℕ) :
    contains page target = some (page.contains target) := by
  have hstop := h.stop_le hindexed
  have hword : c.numRows < 2 ^ 64 := c.entry.numRows.toNat_lt
  rw [contains, CachedPage.contains]
  by_cases hfirst : page.first ≤ target
  · rw [if_pos hfirst, add_eq (by omega)]
    simp [hfirst]
  · rw [if_neg hfirst]
    simp [hfirst]

variable (hsize : bytes.size < 2 ^ 64) (hfile : c.file = .memory bytes)
include hsize hfile

theorem reload_eq (hcolumn : s.column = c) (hindexed : c.Indexed) (target : ℕ) :
    reload target s = whole (Scan.reload target) s := by
  subst hcolumn
  have hread := gives_readPage hsize hindexed hfile (s.column.index.findPage target)
  rw [reload, get_bind, set_bind, whole, Scan.reload]
  cases hcells : s.column.readPage (s.column.index.findPage target) with
  | ok cells =>
      rw [bind_of_ok (still_of_gives (hcells ▸ hread) _)]
      rfl
  | error e => exact bind_of_error (still_of_gives (hcells ▸ hread) _) _

theorem load_eq (hcolumn : s.column = c) (hsound : s.Sound) (target : ℕ) :
    load target s = whole (Scan.load target) s := by
  have hindexed : c.Indexed := hcolumn ▸ hsound.indexed
  rw [load, get_bind, whole, Scan.load]
  cases hcached : s.cached with
  | none => exact reload_eq hsize hfile hcolumn hindexed target
  | some page =>
      have hpage : page.Of c := hcolumn ▸ hsound.kept page hcached
      simp only [lift_bind (contains_eq hpage hindexed target)]
      by_cases hhit : page.contains target = true
      · rw [if_pos hhit, if_pos hhit]
        rfl
      · rw [if_neg hhit, if_neg hhit]
        exact reload_eq hsize hfile hcolumn hindexed target

theorem seek_eq (h : Scan.At c s ordinal) (target : ℕ) :
    seek target s = whole (Scan.seek target) s := by
  have hcolumn := h.column_eq
  rw [seek, get_bind, whole, Scan.seek_eq]
  by_cases hpast : s.column.numRows < target
  · rw [if_pos hpast, if_pos hpast]
    rfl
  · rw [if_neg hpast, if_neg hpast]
    change (if target < s.column.numRows then load target >>= fun _ => pure () else pure () :
      Run Scan Unit) { s with ordinal := target } = _
    by_cases hin : target < s.column.numRows
    · have hload := load_eq hsize hfile (s := { s with ordinal := target }) hcolumn
        ⟨h.sound.indexed, h.sound.kept⟩ target
      rw [if_pos hin, if_pos hin]
      cases hrun : Scan.load target { s with ordinal := target } with
      | ok page s' =>
          rw [whole, hrun] at hload
          exact bind_of_ok hload _
      | error e s' =>
          rw [whole, hrun] at hload
          exact bind_of_error hload _
    · rw [if_neg hin, if_neg hin]
      rfl

omit hsize hfile in
/-- The page that is loaded for a row holds it. -/
theorem of_load {page : CachedPage} (h : Scan.At c s ordinal) (hlt : ordinal < c.numRows)
    (hload : Scan.load ordinal s = .ok page s') :
    s' = { s with cached := some page } ∧ page.Of c ∧ page.first ≤ ordinal ∧
      ordinal < page.first + page.cells.size := by
  obtain ⟨rfl, hsound, rfl, -⟩ := h
  obtain ⟨first, stop, hrange, hle, hstop⟩ :=
    OrdinalIndex.findPage_spec hsound.indexed.ordered (hsound.indexed.rows ▸ hlt)
  cases hread : s.column.readPage (s.column.index.findPage s.ordinal) with
  | error e =>
      rw [Scan.load_eq_error hsound hlt hread] at hload
      cases hload
  | ok cells =>
      obtain ⟨page', hpage', hfirst, hcells, hof⟩ := Scan.load_eq_ok hsound hlt hrange hread
      rw [hpage'] at hload
      cases hload
      have hlen := Column.length_of_readPage hrange hread
      refine ⟨rfl, hof, hfirst.le.trans hle, ?_⟩
      rw [hfirst, hcells, List.size_toArray]
      omega

omit hsize hfile in
/-- What is cut out of the page is what a round of the loop takes. -/
theorem slice_cells {page : CachedPage} (want : ℕ) (hfirst : page.first ≤ ordinal)
    (hstop : ordinal < page.first + page.cells.size) :
    let start := ordinal - page.first
    let count := min want (page.cells.size - start)
    slice page.cells.toList start (start + count) = some (page.cellsFrom ordinal want).toList ∧
      (page.cellsFrom ordinal want).size = count := by
  intro start count
  have hsize : (page.cellsFrom ordinal want).size = count := by
    rw [CachedPage.cellsFrom, Array.size_extract]
    omega
  refine ⟨?_, hsize⟩
  have hcells : page.cellsFrom ordinal want = page.cells.extract start (start + count) := by
    rw [CachedPage.cellsFrom, Array.extract_eq_extract_right]
    omega
  rw [slice_eq (Nat.le_add_right _ _) (by rw [Array.length_toList]; omega), hcells,
    Array.toList_extract]

theorem round_eq {limit : ℕ} {output : Array Cell} {page : CachedPage}
    (h : Scan.At c s s.ordinal) (more : output.size < limit ∧ s.ordinal < s.column.numRows)
    (found : Scan.load s.ordinal s = .ok page s') :
    let taken := page.cellsFrom s.ordinal (limit - output.size)
    let s'' := { s' with ordinal := s.ordinal + taken.size }
    round limit (s, output) = some (.ok (), (s'', output ++ taken)) ∧ 0 < taken.size ∧
      Scan.At c s'' s''.ordinal := by
  intro taken s''
  have hcolumn := h.column_eq
  obtain ⟨rfl, hof, hfirst, hlt⟩ := of_load h (hcolumn ▸ more.2) found
  have hstop := hof.stop_le h.indexed
  have hword : c.numRows < 2 ^ 64 := c.entry.numRows.toNat_lt
  obtain ⟨hslice, htaken⟩ := slice_cells (limit - output.size) hfirst hlt
  have hload := load_eq hsize hfile hcolumn h.sound s.ordinal
  rw [whole, found] at hload
  have hpage : onFirst (load s.ordinal) (s, output) =
      some (.ok page, ({ s with cached := some page }, output)) := by
    rw [onFirst, hload]
    rfl
  change taken.size = _ at htaken
  refine ⟨?_, by omega, hcolumn, h.sound.keep (hcolumn ▸ hof) _, rfl, ?_⟩
  · rw [round, get_bind, bind_of_ok hpage, get_bind]
    simp only []
    rw [lift_bind (sub_eq hfirst), lift_bind (sub_eq more.1.le), lift_bind (sub_eq (by omega)),
      lift_bind (add_eq (by omega)), lift_bind hslice, ← htaken, lift_bind (add_eq (by omega))]
    rfl
  · change s.ordinal + taken.size ≤ c.numRows
    omega

theorem fill_eq {limit : ℕ} {output : Array Cell}
    {result : EStateM.Result Error (Scan × Array Cell) Unit}
    (hfills : Scan.Fills limit s output result) (h : Scan.At c s s.ordinal) :
    fill limit (s, output) = some (settle result) := by
  induction hfills with
  | @full s output enough =>
      rw [fill, if_neg enough]
      rfl
  | @failed s s' output e more failure =>
      have hload := load_eq hsize hfile h.column_eq h.sound s.ordinal
      rw [whole, failure] at hload
      have hround : round limit (s, output) = some (.error e, (s', output)) := by
        rw [round, get_bind]
        refine bind_of_error ?_ _
        rw [onFirst, hload]
        rfl
      rw [fill, if_pos more, hround]
      rfl
  | @round s s' output page result more found rest ih =>
      obtain ⟨hround, hpos, hat⟩ := round_eq hsize hfile h more found
      have hmore : output.size <
          (output ++ page.cellsFrom s.ordinal (limit - output.size)).size := by
        rw [Array.size_append]
        omega
      rw [fill, if_pos more, hround]
      simp only [if_pos hmore]
      exact ih hat

theorem next_eq (h : Scan.At c s ordinal) (limit : ℕ) (earlier : Array Cell) :
    next limit (s, earlier) = whole (Scan.next limit) (s, earlier) := by
  obtain rfl := h.ordinal_eq
  rw [whole, Scan.next, next, get_bind]
  simp only [set_bind]
  by_cases hlimit : limit = 0
  · rw [if_pos hlimit, if_pos hlimit]
    rfl
  · rw [if_neg hlimit, if_neg hlimit]
    by_cases hend : s.column.numRows ≤ s.ordinal
    · rw [Nat.sub_eq_zero_of_le hend, Nat.min_zero, Scan.fill, if_pos rfl]
      simp only [hend, if_true]
      rfl
    · have hfill := fill_eq hsize hfile (h.fills limit #[]) h
      rw [← h.column_eq, Array.size_empty, Nat.sub_zero] at hfill
      simp only [hend, if_false]
      cases hrun : Scan.fill (min limit (s.column.numRows - s.ordinal)) s #[] with
      | ok _ state =>
          rw [hrun] at hfill
          rw [bind_of_ok hfill]
          rfl
      | error e state =>
          rw [hrun] at hfill
          exact bind_of_error hfill _

end

end Columnar.Machine
