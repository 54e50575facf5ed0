import Columnar.Options
import Columnar.Proofs.PageRoundTrip
import Mathlib.Data.List.Forall2
import Mathlib.Data.List.Induction

/-! # The pages that cells make

Cells gather in a page until it is full. The runs of cells between the ends of pages depend on the
cells alone; together they are the cells again. -/

namespace Columnar.Page

/-! ## The page that is being filled -/

namespace Draft

/-- The draft that holds these cells. -/
def of (f : PageFormat) (cells : List Cell) : Draft := cells.foldl add { format := f }

theorem add_of (f : PageFormat) (cells : List Cell) (c : Cell) :
    (of f cells).add c = of f (cells ++ [c]) := by
  simp [of]

@[simp] theorem format_of (f : PageFormat) (cells : List Cell) : (of f cells).format = f := by
  induction cells using List.reverseRecOn with
  | nil => rfl
  | append_singleton cells c ih =>
      rw [← add_of]
      cases c <;> exact ih

@[simp] theorem values_of (f : PageFormat) (cells : List Cell) :
    (of f cells).values.toList = cells.filterMap id := by
  induction cells using List.reverseRecOn with
  | nil => rfl
  | append_singleton cells c ih =>
      rw [← add_of, List.filterMap_append, ← ih]
      cases c <;> simp [add]

@[simp] theorem nulls_of (f : PageFormat) (cells : List Cell) :
    (of f cells).nulls.toList = cells.map Option.isNone := by
  induction cells using List.reverseRecOn with
  | nil => rfl
  | append_singleton cells c ih =>
      rw [← add_of, List.map_append, ← ih]
      cases c <;> simp [add]

@[simp] theorem hasNulls_of (f : PageFormat) (cells : List Cell) :
    (of f cells).hasNulls = cells.any Option.isNone := by
  induction cells using List.reverseRecOn with
  | nil => rfl
  | append_singleton cells c ih =>
      rw [← add_of, List.any_append, ← ih]
      cases c <;> simp [add]

@[simp] theorem numRows_of (f : PageFormat) (cells : List Cell) :
    (of f cells).numRows = cells.length := by
  rw [numRows, ← Array.length_toList, nulls_of, List.length_map]

@[simp] theorem isEmpty_of (f : PageFormat) (cells : List Cell) :
    (of f cells).isEmpty = cells.isEmpty := by
  rw [isEmpty, ← Array.isEmpty_toList, nulls_of, List.isEmpty_map]

/-- Whatever cells went in, the body is that of the cells. -/
theorem body_of (f : PageFormat) (cells : List Cell) :
    (of f cells).body = Page.body f.field f.encoding cells := by
  have hflags : (cells.map Option.isNone).map Bool.toNat = nullBits cells := by
    rw [List.map_map]
    refine List.map_congr_left fun c _ => ?_
    cases c <;> rfl
  rw [body, format_of, values_of, numRows_of, hasNulls_of, nulls_of, bitmap_eq, hflags]
  rfl

theorem encode_of [Lz4.Compressor] (f : PageFormat) (cells : List Cell) :
    (of f cells).encode = Page.encode f cells := by
  rw [encode, body_of, format_of]
  rfl

/-- A draft is empty when its page is made, and keeps its cells when there is none. -/
theorem close_of [Lz4.Compressor] (f : PageFormat) (cells : List Cell) :
    close (of f cells) =
      match Page.encode f cells with
      | .ok page => .ok page (of f [])
      | .error e => .error e (of f cells) := by
  rw [close, get_bind, encode_of]
  cases Page.encode f cells with
  | error e => rfl
  | ok page =>
      change EStateM.Result.ok page ({ format := (of f cells).format } : Draft) = _
      rw [format_of]
      rfl

end Draft

/-- Whether a page with these cells is closed. -/
def full (f : PageFormat) (o : ColumnOptions) (cells : List Cell) : Bool :=
  (Draft.of f cells).isFull o.maxRowsPerPage o.dataPageSize

theorem full_of_le {f : PageFormat} {o : ColumnOptions} {cells : List Cell}
    (h : o.maxRowsPerPage ≤ cells.length) : full f o cells = true := by
  simp [full, Draft.isFull, h]

/-! ## Runs of cells -/

/-- The cells of the pages that are closed, and of the page that is being filled. -/
structure Runs where
  closed : List (List Cell) := []
  current : List Cell := []

namespace Runs

def cells (r : Runs) : List Cell := r.closed.flatten ++ r.current

/-- One more cell in the open page. -/
def push (r : Runs) (c : Cell) : Runs := { r with current := r.current ++ [c] }

/-- The last page is closed unless it is empty. -/
def close (r : Runs) : Runs :=
  if r.current = [] then r else { closed := r.closed ++ [r.current] }

/-- One more cell, which may be the last of its page. -/
def add (f : PageFormat) (o : ColumnOptions) (r : Runs) (c : Cell) : Runs :=
  if full f o (r.push c).current then (r.push c).close else r.push c

theorem cells_push (r : Runs) (c : Cell) : (r.push c).cells = r.cells ++ [c] := by
  simp [push, cells]

theorem cells_close (r : Runs) : r.close.cells = r.cells := by
  unfold close
  split
  next => rfl
  next => simp [cells]

theorem cells_add (f : PageFormat) (o : ColumnOptions) (r : Runs) (c : Cell) :
    (r.add f o c).cells = r.cells ++ [c] := by
  unfold add
  split <;> simp only [cells_close, cells_push]

theorem current_close (r : Runs) : r.close.current = [] := by
  unfold close
  split
  next h => exact h
  next => rfl

/-- No page is empty or too long. -/
structure Within (o : ColumnOptions) (r : Runs) : Prop where
  closed : ∀ run ∈ r.closed, run ≠ [] ∧ run.length ≤ o.maxRowsPerPage
  current : r.current.length ≤ o.maxRowsPerPage

theorem Within.close {o : ColumnOptions} {r : Runs} (h : r.Within o) : r.close.Within o := by
  unfold Runs.close
  split
  next => exact h
  next hne =>
    refine ⟨fun run hrun => ?_, Nat.zero_le _⟩
    rcases List.mem_append.mp hrun with hrun | hrun
    · exact h.closed run hrun
    · obtain rfl : run = r.current := by simpa using hrun
      exact ⟨hne, h.current⟩

/-- A page with room has room for one more cell, or is closed with it. -/
theorem Within.add {o : ColumnOptions} {r : Runs} (h : r.Within o) (f : PageFormat) (c : Cell)
    (hroom : r.current.length < o.maxRowsPerPage) :
    (r.add f o c).Within o ∧ (r.add f o c).current.length < o.maxRowsPerPage := by
  have hpush : (r.push c).Within o := ⟨h.closed, by simpa [push] using Nat.succ_le_of_lt hroom⟩
  unfold Runs.add
  split
  next => exact ⟨hpush.close, by rw [current_close]; exact Nat.zero_lt_of_lt hroom⟩
  next hfull =>
    refine ⟨hpush, ?_⟩
    by_contra hle
    exact hfull (full_of_le (Nat.le_of_not_lt hle))

end Runs

/-- The closed and the open pages of a column that took these cells. -/
def runsOf (f : PageFormat) (o : ColumnOptions) (cells : List Cell) : Runs :=
  cells.foldl (Runs.add f o) {}

/-- The cells of each page of a column that is finished. -/
def runs (f : PageFormat) (o : ColumnOptions) (cells : List Cell) : List (List Cell) :=
  (runsOf f o cells).close.closed

theorem cells_runsOf (f : PageFormat) (o : ColumnOptions) (cells : List Cell) :
    (runsOf f o cells).cells = cells := by
  induction cells using List.reverseRecOn with
  | nil => rfl
  | append_singleton cells c ih =>
      rw [runsOf, List.foldl_append]
      exact (Runs.cells_add f o _ c).trans (by rw [← runsOf, ih])

theorem within_runsOf (f : PageFormat) {o : ColumnOptions} (hpos : 0 < o.maxRowsPerPage)
    (cells : List Cell) :
    (runsOf f o cells).Within o ∧ (runsOf f o cells).current.length < o.maxRowsPerPage := by
  induction cells using List.reverseRecOn with
  | nil => exact ⟨⟨by simp [runsOf], Nat.zero_le _⟩, hpos⟩
  | append_singleton cells c ih =>
      rw [runsOf, List.foldl_append]
      exact ih.1.add f c ih.2

/-- The pages hold the cells in order. -/
theorem flatten_runs (f : PageFormat) (o : ColumnOptions) (cells : List Cell) :
    (runs f o cells).flatten = cells := by
  have hcells := (Runs.cells_close (runsOf f o cells)).trans (cells_runsOf f o cells)
  rwa [Runs.cells, Runs.current_close, List.append_nil] at hcells

theorem mem_runs (f : PageFormat) {o : ColumnOptions} (hpos : 0 < o.maxRowsPerPage)
    {cells run : List Cell} (h : run ∈ runs f o cells) :
    run ≠ [] ∧ run.length ≤ o.maxRowsPerPage :=
  (within_runsOf f hpos cells).1.close.closed run h

/-! ## Where runs begin -/

/-- Each run with the number of cells before it, where `first` stand before the first run. -/
def numbered (first : ℕ) : List (List Cell) → List (ℕ × List Cell)
  | [] => []
  | run :: runs => (first, run) :: numbered (first + run.length) runs

@[simp] theorem length_numbered (first : ℕ) (runs : List (List Cell)) :
    (numbered first runs).length = runs.length := by
  induction runs generalizing first with
  | nil => rfl
  | cons run runs ih => simp [numbered, ih]

theorem numbered_append (first : ℕ) (xs ys : List (List Cell)) :
    numbered first (xs ++ ys) = numbered first xs ++ numbered (first + xs.flatten.length) ys := by
  induction xs generalizing first with
  | nil => simp [numbered]
  | cons x xs ih => simp [numbered, ih, Nat.add_assoc]

theorem getElem?_numbered (first : ℕ) (runs : List (List Cell)) (k : ℕ) :
    (numbered first runs)[k]? =
      runs[k]?.map fun run => (first + (runs.take k).flatten.length, run) := by
  induction runs generalizing first k with
  | nil => simp [numbered]
  | cons run runs ih =>
      cases k with
      | zero => simp [numbered]
      | succ k => simp [numbered, ih, Nat.add_assoc]

theorem numbered_of_getElem? (first : ℕ) {runs : List (List Cell)} {k : ℕ} {run : List Cell}
    (h : runs[k]? = some run) :
    (numbered first runs)[k]? = some (first + (runs.take k).flatten.length, run) := by
  rw [getElem?_numbered, h]
  rfl

/-- The cells of a run stand where it begins. -/
theorem slice_flatten {runs : List (List Cell)} {k : ℕ} {run : List Cell}
    (h : runs[k]? = some run) :
    (runs.flatten.drop (runs.take k).flatten.length).take run.length = run := by
  obtain ⟨hk, rfl⟩ := List.getElem?_eq_some_iff.mp h
  have hsplit : runs.flatten =
      (runs.take k).flatten ++ (runs[k] ++ (runs.drop (k + 1)).flatten) := by
    rw [← List.flatten_cons, ← List.drop_eq_getElem_cons hk, ← List.flatten_append,
      List.take_append_drop]
  rw [hsplit]
  simp

end Columnar.Page
