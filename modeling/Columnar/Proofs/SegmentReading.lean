import Columnar.Proofs.SegmentFile
import Columnar.Proofs.SegmentOpening
import Columnar.Proofs.ZoneMapSoundness
import Columnar.Segment.RowScan

/-! # Reading a segment

A finished segment opens, with the number of its rows and all its columns. -/

namespace Columnar

/-- What is found at each position of a list is found for the positions one after the other. -/
theorem mapM_range_eq_ok {α β : Type} {R : α → β → Prop} {f : ℕ → Except Error β} {xs : List α}
    (h : ∀ k x, xs[k]? = some x → ∃ y, f k = .ok y ∧ R x y) :
    ∃ ys, (List.range xs.length).mapM f = .ok ys ∧ List.Forall₂ R xs ys := by
  induction xs using List.reverseRecOn with
  | nil => exact ⟨[], rfl, .nil⟩
  | append_singleton xs x ih =>
      obtain ⟨ys, hys, hall⟩ := ih fun k x' hk => h k x' (by
        rw [List.getElem?_append_left (List.getElem?_eq_some_iff.mp hk).1]
        exact hk)
      obtain ⟨y, hy, hR⟩ := h xs.length x (by simp)
      refine ⟨ys ++ [y], ?_, List.rel_append hall (.cons hR .nil)⟩
      rw [List.length_append, List.length_singleton, List.range_succ, List.mapM_append, hys,
        List.mapM_cons, hy]
      rfl

namespace SegmentPlan

variable {plan : SegmentPlan} {rows : List Row} {file body : Array UInt8} {footer : Footer}

/-! ## The columns of the footer -/

theorem getElem?_tasksFrom (plan : SegmentPlan) (position : ℕ) (cs : List ColumnSchema)
    (rows : List Row) (k : ℕ) :
    (plan.tasksFrom position cs rows)[k]? =
      cs[k]?.map fun c => ⟨plan.column (position + k) c, rows.map fun row => row[k]?.join⟩ := by
  induction cs generalizing position rows k with
  | nil => rfl
  | cons c cs ih =>
      cases k with
      | zero => simp [tasksFrom, List.head?_eq_getElem?]
      | succ k => simp [tasksFrom, ih, Nat.add_assoc, Nat.add_comm 1 k, Function.comp_def]

theorem length_cells_of_mem_tasksFrom {position : ℕ} {cs : List ColumnSchema} {t : ColumnTask}
    (h : t ∈ plan.tasksFrom position cs rows) : t.cells.length = rows.length := by
  induction cs generalizing position rows with
  | nil => cases h
  | cons c cs ih =>
      rcases List.mem_cons.mp h with rfl | h
      · exact List.length_map _
      · exact (ih h).trans (List.length_map _)

namespace Lies

variable [Lz4.Compressor]

theorem columns_lt (h : plan.Lies rows body footer) : footer.columns.length < 2 ^ 32 := by
  have hlen := h.footer_lt
  have hcount : 8 * footer.columns.length ≤ (footer.columns.flatMap ColumnMeta.encode).length :=
    Bytes.mul_length_le_flatMap fun m _ => m.eight_le_length_encode
  simp only [Footer.encode, List.length_append, List.length_cons] at hlen
  omega

/-- Columns are numbered as they stand in the schema. -/
theorem id_eq (h : plan.Lies rows body footer) {k : ℕ} {m : ColumnMeta}
    (hm : footer.columns[k]? = some m) : m.id.toNat = k := by
  obtain ⟨t, ht, hwritten⟩ := forall₂_getElem? h.columns hm
  have hid : m.id = t.plan.id := by
    rw [hwritten.entry]
    rfl
  obtain ⟨hk, -⟩ := List.getElem?_eq_some_iff.mp hm
  rw [tasks, getElem?_tasksFrom, Nat.zero_add] at ht
  obtain ⟨c, -, rfl⟩ := Option.map_eq_some_iff.mp ht
  rw [hid]
  exact UInt32.toNat_ofNat_of_lt (hk.trans h.columns_lt)

theorem wellFormed (h : plan.Lies rows body footer) {m : ColumnMeta}
    (hm : m ∈ footer.columns) : m.WellFormed := by
  obtain ⟨k, hk⟩ := List.mem_iff_getElem?.mp hm
  obtain ⟨t, ht, hwritten⟩ := forall₂_getElem? h.columns hk
  exact hwritten.wellFormed (h.accepted t (List.mem_of_getElem? ht))

/-! ## Opening -/

theorem parse_eq_ok (h : plan.Lies rows body footer) :
    Footer.parse footer.encode = .ok footer :=
  Footer.parse_encode h.version (fun m hm => h.wellFormed hm) (fun k m hm => h.id_eq hm)
    (h.footer_lt.trans (by norm_num))

theorem keysWithin (h : plan.Lies rows body footer) : footer.KeysWithin body.size := by
  obtain ⟨p, hp, hstored⟩ := h.shortKeys
  intro q hq
  obtain rfl : q = p := by simpa [hp] using hq.symm
  exact hstored.within_size

/-- A finished segment opens. -/
theorem open_eq_ok (h : plan.Lies rows body footer)
    (hfile : Segment.Sealed file body footer.encode) :
    Segment.open (.memory file) = .ok ⟨.memory file, footer⟩ :=
  hfile.open_eq_ok h.parse_eq_ok h.keysWithin

theorem numRows_eq (h : plan.Lies rows body footer) :
    (Segment.mk (.memory file) footer).numRows = rows.length := by
  rw [Segment.numRows, h.numRows]
  exact UInt64.toNat_ofNat_of_lt (h.rows_lt.trans (by norm_num))

/-- Each column opens, with the cells of all rows. -/
theorem column_eq_ok (h : plan.Lies rows body footer)
    (hfile : Segment.Sealed file body footer.encode) (options : ReadOptions)
    {k : ℕ} {t : ColumnTask} (ht : (plan.tasks rows)[k]? = some t) :
    ∃ col, (Segment.mk (.memory file) footer).column k options = .ok col ∧
      t.plan.Opened t.cells file options col := by
  obtain ⟨m, hm, hwritten⟩ := forall₂_getElem? h.columns.flip ht
  have hmem := List.mem_of_getElem? ht
  obtain ⟨col, hcol, hopened⟩ := (hwritten.append
    (footer.encode ++ Footer.trailer footer.encode)).open (h.accepted t hmem) options
  rw [length_cells_of_mem_tasksFrom hmem, ← hfile.file_eq] at hcol
  rw [← hfile.file_eq] at hopened
  refine ⟨col, ?_, hopened⟩
  rw [Segment.column, hm, h.numRows_eq]
  exact hcol

/-- A scan of all columns starts at the first row. -/
theorem rows_eq_ok (h : plan.Lies rows body footer) (hfile : Segment.Sealed file body footer.encode)
    (options : ReadOptions) :
    ∃ columns, (Segment.mk (.memory file) footer).rows options =
        .ok { columns := columns.map Column.scan, numRows := rows.length } ∧
      List.Forall₂ (fun t col => t.plan.Opened t.cells file options col)
        (plan.tasks rows) columns := by
  obtain ⟨columns, hcolumns, hall⟩ := mapM_range_eq_ok fun k t ht =>
    h.column_eq_ok hfile options ht
  refine ⟨columns, ?_, hall⟩
  have hcount : (Segment.mk (.memory file) footer).numColumns = (plan.tasks rows).length :=
    h.columns.length_eq.symm
  rw [Segment.rows, hcount, h.numRows_eq]
  exact bind_of_eq_ok hcolumns rfl

end Lies

end SegmentPlan

/-- A finished segment ends the file. -/
theorem SegmentWriter.Writes.lies [Lz4.Compressor] {id : UInt32} {schema : Schema}
    {options : SegmentOptions} {initial file : Array UInt8} {rows : List Row}
    (h : SegmentWriter.Writes id schema options initial rows file) (hsize : file.size < 2 ^ 64) :
    ∃ (plan : SegmentPlan) (body : Bytes) (footer : Footer), plan.id = id ∧
      plan.schema = schema ∧ plan.options = options ∧
      Segment.Sealed file (initial ++ body) footer.encode ∧
      plan.Lies rows (initial ++ body) footer := by
  obtain ⟨hinit, happend, hfinalize, houtput⟩ := h
  obtain ⟨plan, hid, hschema, hoptions, hholds⟩ := SegmentPlan.init_eq_ok hinit
  have hrows := hholds.appendAll happend
  obtain ⟨body, footer, hfile, -, hlies⟩ := hrows.finalize hfinalize
  rw [houtput] at hfile
  obtain rfl : file = _ := by simpa using hfile
  have hlies := hlies hsize
  exact ⟨plan, body, footer, hid, hschema, hoptions, ⟨rfl, hlies.footer_lt⟩, hlies⟩

end Columnar
