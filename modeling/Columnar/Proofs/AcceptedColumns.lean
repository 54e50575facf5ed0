import Columnar.Proofs.IndexParsing
import Columnar.Proofs.ColumnScan

/-! # Columns that open

What is known of a column because it was opened: its pages lie in the file, one behind the other in
the order of the rows. -/

namespace Columnar

theorem of_forM_eq_ok {α : Type} {f : α → Except Error Unit} {xs : List α}
    (h : xs.forM f = .ok ()) : ∀ x ∈ xs, f x = .ok () := by
  induction xs with
  | nil => simp
  | cons x xs ih =>
      obtain ⟨_, hx, hxs⟩ := of_bind_eq_ok h
      intro y hy
      rcases List.mem_cons.mp hy with rfl | hy
      · exact hx
      · exact ih hxs y hy

namespace Column

theorem within_of_requireInside {id : UInt32} {part : Section} {size : ℕ} {p : Pointer}
    (h : requireInside id part size p = .ok ()) : p.within size = true := by
  unfold requireInside at h
  split at h
  next hwithin => exact hwithin
  next => cases h

/-- The column is what the entry says, as far as opening it finds out. -/
structure OpensFrom (options : ReadOptions) (entry : ColumnMeta) (numRows : ℕ) (file : File)
    (c : Column) : Prop where
  entry_eq : c.entry = entry
  file_eq : c.file = file
  verify_eq : c.verify = options.verifyChecksums
  rows_eq : entry.numRows.toNat = numRows
  within : ∀ p ∈ entry.pages, p.within file.size = true
  pointers : c.index.entries.map (·.pointer) = entry.pages
  index : ∃ p data, entry.ordinalIndex = some p ∧ file.read p = .ok data ∧
    OrdinalIndex.parse data numRows = .ok c.index
  format : PageFormat.new entry.field entry.encoding entry.compression = .ok c.format

theorem of_open_eq_ok {options : ReadOptions} {entry : ColumnMeta} {numRows : ℕ} {file : File}
    {c : Column} (h : Column.open options entry numRows file = .ok c) :
    OpensFrom options entry numRows file c := by
  unfold Column.open at h
  obtain ⟨hrows, h⟩ := of_check_eq_ok h
  obtain ⟨_, hpages, h⟩ := of_bind_eq_ok h
  cases hindex : entry.ordinalIndex with
  | none => rw [hindex] at h; cases h
  | some p =>
    rw [hindex] at h
    obtain ⟨_, -, h⟩ := of_bind_eq_ok h
    obtain ⟨_, -, h⟩ := of_bind_eq_ok h
    obtain ⟨data, hdata, h⟩ := of_bind_eq_ok h
    obtain ⟨index, hparse, h⟩ := of_bind_eq_ok h
    obtain ⟨hpointers, h⟩ := of_check_eq_ok h
    -- whatever the zone maps are, the column is made up after them
    have hlast : ∃ zoneMaps, (do
        let format ← PageFormat.new entry.field entry.encoding entry.compression
        return ⟨entry, format, index, zoneMaps, file, options.verifyChecksums⟩) =
          Except.ok c := by
      cases hmaps : entry.zoneMaps with
      | none =>
        rw [hmaps] at h
        exact ⟨none, h⟩
      | some q =>
        rw [hmaps] at h
        obtain ⟨maps, -, h⟩ := of_bind_eq_ok h
        exact ⟨maps, h⟩
    obtain ⟨maps, h⟩ := hlast
    obtain ⟨format, hformat, h⟩ := of_bind_eq_ok h
    cases h
    refine ⟨rfl, rfl, rfl, not_not.mp hrows, ?_, not_not.mp hpointers,
      ⟨p, data, hindex, hdata, hparse⟩, hformat⟩
    intro q hq
    exact within_of_requireInside (of_forM_eq_ok hpages q (by simpa using hq))

namespace OpensFrom

variable {options : ReadOptions} {entry : ColumnMeta} {numRows : ℕ} {file : File} {c : Column}

theorem numRows_eq (h : OpensFrom options entry numRows file c) : c.numRows = numRows := by
  rw [Column.numRows, h.entry_eq, h.rows_eq]

theorem indexed (h : OpensFrom options entry numRows file c) : c.Indexed := by
  obtain ⟨p, data, -, -, hparse⟩ := h.index
  obtain ⟨hrows, -, hordered, -⟩ := OrdinalIndex.parse_eq_ok_iff.mp hparse
  exact ⟨hrows.trans h.numRows_eq.symm, hrows ▸ hordered⟩

end OpensFrom

end Column

end Columnar
