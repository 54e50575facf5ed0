import Columnar.Proofs.ColumnScan

/-! # Columns that show cells

A column shows cells if each row reads as its cell, or fails in a way that is allowed for. A column
that was written shows the cells that it took. -/

namespace Columnar

/-- Each row of the column reads as its cell, unless it fails with one of these errors. -/
structure Column.Shows (failures : Error → Prop) (cells : List Cell) (c : Column) : Prop where
  numRows : c.numRows = cells.length
  indexed : c.Indexed
  cellAt : ∀ j cell, cells[j]? = some cell →
    c.cellAt j = .ok cell ∨ ∃ e, c.cellAt j = .error e ∧ failures e

namespace Column.Shows

variable {failures : Error → Prop} {cells : List Cell} {c : Column}

/-- What is read from an ordinal on are the cells that stand there. -/
theorem eq_of_cellsFrom (h : c.Shows failures cells) {ordinal n : ℕ} {found : List Cell}
    (hfit : ordinal + n ≤ cells.length) (hfound : c.cellsFrom ordinal n = .ok found) :
    found = (cells.drop ordinal).take n := by
  obtain ⟨hlen, hcells⟩ := Column.getElem?_of_cellsFrom hfound
  refine List.ext_getElem? fun i => ?_
  rcases Nat.lt_or_ge i n with hlt | hge
  · have hcell : found[i]? = some found[i] := List.getElem?_eq_getElem (by omega)
    have hthere : cells[ordinal + i]? = some cells[ordinal + i] :=
      List.getElem?_eq_getElem (by omega)
    have hread := hcells i _ hcell
    rw [List.getElem?_take_of_lt hlt, List.getElem?_drop, hcell, hthere]
    rcases h.cellAt _ _ hthere with hcellAt | ⟨e, hcellAt, -⟩
    · rw [hread] at hcellAt
      exact congrArg some (Except.ok.inj hcellAt)
    · rw [hread] at hcellAt
      cases hcellAt
  · rw [List.getElem?_eq_none (by omega), List.getElem?_eq_none (by simp; omega)]

/-- A row that does not read fails as it may. -/
theorem failures_of_cellAt (h : c.Shows failures cells) {ordinal : ℕ} {e : Error}
    (hlt : ordinal < c.numRows) (hcell : c.cellAt ordinal = .error e) : failures e := by
  rw [h.numRows] at hlt
  rcases h.cellAt ordinal _ (List.getElem?_eq_getElem hlt) with hcellAt | ⟨e', hcellAt, hfailure⟩
  · rw [hcell] at hcellAt
    cases hcellAt
  · rw [hcell] at hcellAt
    cases hcellAt
    exact hfailure

end Column.Shows

/-! ## Columns that were written -/

namespace ColumnPlan.Opened

variable [Lz4.Compressor] {plan : ColumnPlan} {cells : List Cell} {file : Array UInt8}
  {options : ReadOptions} {col : Column}

theorem indexed (h : plan.Opened cells file options col) : col.Indexed :=
  ⟨h.rows.trans h.numRows.symm, h.ordered⟩

/-- Each row has its cell, if the pages read as their runs. -/
theorem cellAt_eq_ok (h : plan.Opened cells file options col)
    (hpages : ∀ k run, (plan.runs cells)[k]? = some run → col.readPage k = .ok run) {j : ℕ}
    {c : Cell} (hc : cells[j]? = some c) : col.cellAt j = .ok c := by
  obtain ⟨hj, -⟩ := List.getElem?_eq_some_iff.mp hc
  obtain ⟨first, stop, hrange, hfirst, hstop⟩ :=
    OrdinalIndex.findPage_spec h.ordered (h.rows.symm ▸ hj)
  have hrun := h.range?_eq (col.index.findPage j)
  rw [hrange] at hrun
  obtain ⟨run, hk, heq⟩ := Option.map_eq_some_iff.mp hrun.symm
  obtain ⟨rfl, rfl⟩ := Prod.mk.inj heq
  rw [Column.cellAt, (OrdinalIndex.range?_eq_some hrange).1, Option.getD_some]
  apply bind_of_eq_ok (hpages _ run hk)
  rw [getElem?_run hk hfirst hstop, hc]
  rfl

theorem shows (h : plan.Opened cells file options col)
    (hpages : ∀ k run, (plan.runs cells)[k]? = some run → col.readPage k = .ok run) :
    col.Shows (fun _ => False) cells where
  numRows := h.numRows
  indexed := h.indexed
  cellAt _ _ hc := .inl (h.cellAt_eq_ok hpages hc)

end ColumnPlan.Opened

end Columnar
