import Columnar.Proofs.PageRuns
import Mathlib.Algebra.Ring.Nat

/-! # Pages are cut greedily

A page goes on to the first cell with which it is full, be it that it has the most rows that it may
have or that its estimated length reaches the limit. What is left at the end is a page of its own.
This says which cells are on which page, without a writer. -/

namespace Columnar.Page

variable {f : Field} {o : ColumnOptions}

/-- The length of the body of a page in plain form, with a bit for each cell. -/
def estimate (f : Field) (cells : List Cell) : ℕ :=
  Varint.size cells.length + 1 + bytesFor cells.length +
    ((cells.filterMap id).map f.encodedSize).sum

/-- A page with these cells is closed. -/
def Fills (f : Field) (o : ColumnOptions) (cells : List Cell) : Prop :=
  o.maxRowsPerPage ≤ cells.length ∨ o.dataPageSize ≤ estimate f cells

/-- No cell of the run fills a page that begins with the run. -/
def Room (f : Field) (o : ColumnOptions) (run : List Cell) : Prop :=
  ∀ part, part <+: run → part ≠ [] → ¬ Fills f o part

/-- The run ends with the first cell with which a page is closed. -/
structure FillsFirst (f : Field) (o : ColumnOptions) (run : List Cell) : Prop where
  nonempty : run ≠ []
  fills : Fills f o run
  first : ∀ part, part <+: run → part ≠ [] → part ≠ run → ¬ Fills f o part

/-- The cells are cut into these runs, each of which goes on as far as its page has room. -/
inductive Cut (f : Field) (o : ColumnOptions) : List Cell → List (List Cell) → Prop
  | nil : Cut f o [] []
  | last {run : List Cell} (nonempty : run ≠ []) (room : Room f o run) : Cut f o run [run]
  | cons {run rest : List Cell} {runs : List (List Cell)} (full : FillsFirst f o run)
      (more : Cut f o rest runs) : Cut f o (run ++ rest) (run :: runs)

/-! ## There is one way to cut -/

theorem FillsFirst.eq_of_prefix {run run' cells : List Cell} (h : FillsFirst f o run)
    (h' : FillsFirst f o run') (hrun : run <+: cells) (hrun' : run' <+: cells) : run = run' := by
  rcases Nat.le_total run.length run'.length with hle | hle
  · by_contra hne
    exact h'.first run (List.prefix_of_prefix_length_le hrun hrun' hle) h.nonempty hne h.fills
  · by_contra hne
    exact h.first run' (List.prefix_of_prefix_length_le hrun' hrun hle) h'.nonempty
      (fun heq => hne heq.symm) h'.fills

theorem Cut.unique {cells : List Cell} {runs runs' : List (List Cell)} (h : Cut f o cells runs)
    (h' : Cut f o cells runs') : runs = runs' := by
  induction h generalizing runs' with
  | nil =>
      generalize hcells : ([] : List Cell) = cells at h'
      cases h' with
      | nil => rfl
      | last nonempty room => exact absurd hcells.symm nonempty
      | cons full more => exact absurd (List.append_eq_nil_iff.mp hcells.symm).1 full.nonempty
  | @last run nonempty room =>
      generalize hcells : run = cells at h'
      cases h' with
      | nil => exact absurd hcells nonempty
      | last nonempty' room' => rfl
      | cons full more =>
          exact absurd full.fills (room _ (hcells ▸ List.prefix_append _ _) full.nonempty)
  | @cons run rest runs full more ih =>
      generalize hcells : run ++ rest = cells at h'
      cases h' with
      | nil => exact absurd (List.append_eq_nil_iff.mp hcells).1 full.nonempty
      | last nonempty room =>
          exact absurd full.fills (room _ (hcells ▸ List.prefix_append _ _) full.nonempty)
      | @cons run' rest' runs' full' more' =>
          have hprefix : run' <+: run ++ rest := by
            rw [hcells]
            exact List.prefix_append _ _
          obtain rfl := full.eq_of_prefix full' (List.prefix_append _ _) hprefix
          rw [List.append_cancel_left hcells] at ih
          rw [ih more']

theorem Cut.flatten {cells : List Cell} {runs : List (List Cell)} (h : Cut f o cells runs) :
    runs.flatten = cells := by
  induction h with
  | nil => rfl
  | last nonempty room => simp
  | cons full more ih => rw [List.flatten_cons, ih]

/-! ## The pages of a column are cut so -/

/-- The sizes that are added up while cells come in are those of the cells. -/
theorem estimatedSize_of (f : PageFormat) (cells : List Cell) :
    (Draft.of f cells).estimatedSize = estimate f.field cells := by
  have hvalues : (Draft.of f cells).valueBytes =
      ((cells.filterMap id).map f.field.encodedSize).sum := by
    induction cells using List.reverseRecOn with
    | nil => rfl
    | append_singleton cells c ih =>
        rw [← Draft.add_of, List.filterMap_append, List.map_append, List.sum_append, ← ih]
        cases c <;> simp [Draft.add]
  rw [Draft.estimatedSize, Draft.numRows_of, hvalues, estimate]

theorem full_iff (f : PageFormat) (cells : List Cell) :
    full f o cells = true ↔ Fills f.field o cells := by
  rw [full, Draft.isFull, estimatedSize_of, Draft.numRows_of, Bool.or_eq_true, decide_eq_true_eq,
    decide_eq_true_eq, Fills]

/-- The closed pages were closed as soon as they were full, and the open one has room. -/
structure Runs.Greedy (f : Field) (o : ColumnOptions) (r : Runs) : Prop where
  closed : ∀ run ∈ r.closed, FillsFirst f o run
  current : Room f o r.current

theorem Runs.Greedy.add {f : PageFormat} {r : Runs} (h : r.Greedy f.field o) (c : Cell) :
    (r.add f o c).Greedy f.field o := by
  have hbefore : ∀ part, part <+: r.current ++ [c] → part ≠ [] → part ≠ r.current ++ [c] →
      ¬ Fills f.field o part := fun part hpart hne hproper =>
    h.current part ((List.prefix_concat_iff.mp hpart).resolve_left hproper) hne
  unfold Runs.add
  by_cases hfull : full f o (r.push c).current = true
  · rw [if_pos hfull, Runs.close, if_neg (by simp [Runs.push])]
    refine ⟨fun run hrun => ?_, fun part hpart hne => absurd (List.prefix_nil.mp hpart) hne⟩
    rcases List.mem_append.mp hrun with hrun | hrun
    · exact h.closed run hrun
    · obtain rfl := List.mem_singleton.mp hrun
      exact ⟨by simp [Runs.push], (full_iff f _).mp hfull, hbefore⟩
  · rw [if_neg hfull]
    refine ⟨h.closed, fun part hpart hne hfills => ?_⟩
    by_cases hproper : part = r.current ++ [c]
    · subst hproper
      exact hfull ((full_iff f _).mpr hfills)
    · exact hbefore part hpart hne hproper hfills

theorem greedy_runsOf (f : PageFormat) (o : ColumnOptions) (cells : List Cell) :
    (runsOf f o cells).Greedy f.field o := by
  induction cells using List.reverseRecOn with
  | nil => exact ⟨by simp [runsOf], fun part hpart hne => absurd (List.prefix_nil.mp hpart) hne⟩
  | append_singleton cells c ih =>
      rw [runsOf, List.foldl_append]
      exact ih.add c

/-- Runs that are full come before what the others are cut into. -/
theorem Cut.append {closed runs : List (List Cell)} {rest : List Cell}
    (hclosed : ∀ run ∈ closed, FillsFirst f o run) (h : Cut f o rest runs) :
    Cut f o (closed.flatten ++ rest) (closed ++ runs) := by
  induction closed with
  | nil => exact h
  | cons run closed ih =>
      rw [List.flatten_cons, List.append_assoc]
      exact .cons (hclosed run (by simp)) (ih fun r hr => hclosed r (by simp [hr]))

theorem Runs.Greedy.close {r : Runs} (h : r.Greedy f o) : Cut f o r.cells r.close.closed := by
  unfold Runs.close
  by_cases hempty : r.current = []
  · rw [if_pos hempty, Runs.cells, hempty]
    simpa using Cut.append h.closed .nil
  · rw [if_neg hempty, Runs.cells]
    exact Cut.append h.closed (.last hempty h.current)

/-- The pages of a finished column hold the runs into which its cells are cut. -/
theorem cut_runs (f : PageFormat) (o : ColumnOptions) (cells : List Cell) :
    Cut f.field o cells (runs f o cells) := by
  have hclose := (greedy_runsOf f o cells).close
  rwa [cells_runsOf] at hclose

end Columnar.Page
