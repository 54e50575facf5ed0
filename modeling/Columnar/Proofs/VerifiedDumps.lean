import Columnar.Inspect.Run
import Columnar.Proofs.RowBatches

/-! # Dumps of verified segments

A segment that verifies has a cell in each row of each column, also if checksums are not compared.
A dump prints these cells row by row, wherever pages end and however many rows it reads at once. -/

namespace Columnar

/-! ## Reading without checksums -/

/-- What was checked is read without a check as well. -/
theorem Page.stripChecksum_of_checked {raw compressed : Bytes}
    (h : stripChecksum raw true = .ok compressed) (verify : Bool) :
    stripChecksum raw verify = .ok compressed := by
  cases verify with
  | true => exact h
  | false =>
      simp only [stripChecksum, if_true] at h
      simp only [stripChecksum, Bool.false_eq_true, if_false]
      by_cases hsize : raw.length < 4
      · rw [if_pos hsize] at h
        cases h
      · rw [if_neg hsize] at h ⊢
        split at h
        next => exact h
        next => cases h

theorem Page.decode_of_checked {f : PageFormat} {raw : Bytes} {rows : ℕ} {cells : List Cell}
    (h : decode f raw rows true = .ok cells) (verify : Bool) :
    decode f raw rows verify = .ok cells := by
  unfold decode at h ⊢
  obtain ⟨hrows, h⟩ := of_check_eq_ok h
  obtain ⟨compressed, hstrip, h⟩ := of_bind_eq_ok h
  rw [if_neg hrows]
  exact bind_of_eq_ok (stripChecksum_of_checked hstrip verify) h

namespace Column

variable {c : Column} {options : ReadOptions} {entry : ColumnMeta} {numRows : ℕ} {file : File}

/-- A column that opens with some options opens with any, and keeps the page check they ask for. -/
theorem open_with (h : Column.open options entry numRows file = .ok c) (options' : ReadOptions) :
    Column.open options' entry numRows file =
      .ok { c with verify := options'.verifyChecksums } := by
  unfold Column.open at h ⊢
  obtain ⟨hrows, h⟩ := of_check_eq_ok h
  obtain ⟨_, hpages, h⟩ := of_bind_eq_ok h
  rw [if_neg hrows]
  refine bind_of_eq_ok hpages ?_
  cases hindex : entry.ordinalIndex with
  | none => rw [hindex] at h; cases h
  | some p =>
    rw [hindex] at h
    obtain ⟨_, hinside, h⟩ := of_bind_eq_ok h
    obtain ⟨_, hmaps, h⟩ := of_bind_eq_ok h
    obtain ⟨data, hdata, h⟩ := of_bind_eq_ok h
    obtain ⟨index, hparse, h⟩ := of_bind_eq_ok h
    obtain ⟨hpointers, h⟩ := of_check_eq_ok h
    refine bind_of_eq_ok hinside (bind_of_eq_ok hmaps (bind_of_eq_ok hdata
      (bind_of_eq_ok hparse ?_)))
    rw [if_neg hpointers]
    -- the options are only kept, behind the last step that can fail
    cases hzones : entry.zoneMaps with
    | none =>
      rw [hzones] at h
      obtain ⟨_, hnone, h⟩ := of_bind_eq_ok h
      cases hnone
      obtain ⟨format, hformat, h⟩ := of_bind_eq_ok h
      cases h
      exact bind_of_eq_ok rfl (bind_of_eq_ok hformat rfl)
    | some q =>
      rw [hzones] at h
      obtain ⟨maps, hread, h⟩ := of_bind_eq_ok h
      obtain ⟨format, hformat, h⟩ := of_bind_eq_ok h
      cases h
      exact bind_of_eq_ok hread (bind_of_eq_ok hformat rfl)

theorem readPage_of_checked (hverify : c.verify = true) {k : ℕ} {cells : List Cell}
    (h : c.readPage k = .ok cells) (verify : Bool) :
    ({ c with verify } : Column).readPage k = .ok cells := by
  unfold readPage at h ⊢
  split at h
  next e first stop hentry hrange =>
    obtain ⟨raw, hraw, h⟩ := of_bind_eq_ok h
    rw [hverify] at h
    dsimp only
    rw [hentry, hrange]
    exact bind_of_eq_ok hraw (Page.decode_of_checked h verify)
  next => cases h

theorem cellAt_of_checked (hverify : c.verify = true) {ordinal : ℕ} {cell : Cell}
    (h : c.cellAt ordinal = .ok cell) (verify : Bool) :
    ({ c with verify } : Column).cellAt ordinal = .ok cell := by
  obtain ⟨cells, hread, h⟩ := of_bind_eq_ok h
  exact bind_of_eq_ok (readPage_of_checked hverify hread verify) h

/-! ## Columns whose rows all read -/

/-- Each row of the column reads as its cell. -/
abbrev Gives (cells : List Cell) (c : Column) : Prop := c.Shows (fun _ => False) cells

theorem Gives.getElem?_of_cellsFrom {cells found : List Cell} (h : c.Gives cells) {ordinal n : ℕ}
    (hfit : ordinal + n ≤ cells.length) (hfound : c.cellsFrom ordinal n = .ok found) (i : ℕ)
    (cell : Cell) (hi : found[i]? = some cell) : cells[ordinal + i]? = some cell := by
  have hlen := (Column.getElem?_of_cellsFrom hfound).1
  obtain ⟨hlt, -⟩ := List.getElem?_eq_some_iff.mp hi
  rw [← hi, h.eq_of_cellsFrom hfit hfound, List.getElem?_take_of_lt (by omega),
    List.getElem?_drop]

theorem Gives.hasCell {cells : List Cell} (h : c.Gives cells) {i : ℕ} {cell : Cell}
    (hi : cells[i]? = some cell) : c.HasCell i cell := by
  obtain ⟨hlt, -⟩ := List.getElem?_eq_some_iff.mp hi
  rcases h.cellAt i cell hi with hcell | ⟨_, _, hnever⟩
  · exact (h.indexed.cellAt_eq_ok_iff (by rw [h.numRows]; exact hlt)).mp hcell
  · exact hnever.elim

theorem Gives.unchecked {cells : List Cell} (h : c.Gives cells) (hverify : c.verify = true)
    (verify : Bool) : ({ c with verify } : Column).Gives cells where
  numRows := h.numRows
  indexed := ⟨h.indexed.rows, h.indexed.ordered⟩
  cellAt j cell hj := by
    rcases h.cellAt j cell hj with hcell | ⟨_, _, hnever⟩
    · exact .inl (cellAt_of_checked hverify hcell verify)
    · exact hnever.elim

end Column

theorem Segment.column_with {s : Segment} {column : ℕ} {options : ReadOptions} {c : Column}
    (h : s.column column options = .ok c) (options' : ReadOptions) :
    s.column column options' = .ok { c with verify := options'.verifyChecksums } := by
  unfold Segment.column at h ⊢
  cases hentry : s.footer.columns[column]? with
  | none =>
      rw [hentry] at h
      cases h
  | some entry =>
      rw [hentry] at h
      exact Column.open_with h options'

/-! ## What was counted -/

theorem Column.cellsFrom_add {c : Column} {ordinal m n : ℕ} {cells more : List Cell}
    (h : c.cellsFrom ordinal m = .ok cells) (hmore : c.cellsFrom (ordinal + m) n = .ok more) :
    c.cellsFrom ordinal (m + n) = .ok (cells ++ more) := by
  induction m generalizing ordinal cells with
  | zero =>
      cases h
      rw [Nat.zero_add]
      exact hmore
  | succ m ih =>
      rw [cellsFrom_succ] at h
      obtain ⟨cell, hcell, h⟩ := of_bind_eq_ok h
      obtain ⟨rest, hrest, h⟩ := of_bind_eq_ok h
      cases h
      rw [Nat.succ_add_eq_add_succ, Nat.add_succ, cellsFrom_succ]
      have hmore' := ih hrest (by rwa [Nat.add_right_comm, Nat.add_assoc])
      exact bind_of_eq_ok hcell (bind_of_eq_ok hmore' rfl)

namespace Inspect

variable {c : Column} {s : Scan} {ordinal : ℕ}

/-- If the rows of a column are counted to the end, each of them has a cell. -/
theorem cellsFrom_of_countRows {column left rows total : ℕ} (h : Scan.At c s ordinal)
    (hleft : left = c.numRows - ordinal) (hcount : countRows column left rows s = .ok total) :
    ∃ cells, c.cellsFrom ordinal left = .ok cells := by
  induction left using Nat.strong_induction_on generalizing s ordinal rows with
  | _ left ih =>
      have hle := h.ordinal_le
      rw [countRows] at hcount
      rcases h.next_cases (show 0 < verifyBatch by decide) #[] with
        ⟨cells, s', hcells, hnext, hat⟩ | ⟨_, e, s', _, _, hnext, _⟩
      · rw [hnext] at hcount
        by_cases hend : min verifyBatch (c.numRows - ordinal) = 0
        · have hzero : left = 0 := by
            rw [verifyBatch] at hend
            omega
          subst hzero
          exact ⟨[], rfl⟩
        · simp only [if_neg hend] at hcount
          rw [dif_pos (by omega)] at hcount
          obtain ⟨more, hmore⟩ := ih (left - min verifyBatch (c.numRows - ordinal)) (by omega) hat
            (by omega) hcount
          have hall := Column.cellsFrom_add hcells hmore
          rw [Nat.add_sub_of_le (by omega)] at hall
          exact ⟨_, hall⟩
      · rw [hnext] at hcount
        cases hcount

theorem of_attempt_eq_ok {α : Type} {context : String} {x : Except Error α} {a : α}
    {lines lines' : List String} (h : attempt context x lines = .ok a lines') : x = .ok a := by
  cases x <;> cases h
  rfl

theorem of_forM_eq_ok {α : Type} {f : α → Work Unit} {xs : List α} {lines lines' : List String}
    (h : xs.forM f lines = .ok () lines') :
    ∀ x ∈ xs, ∃ before after, f x before = .ok () after := by
  induction xs generalizing lines with
  | nil => simp
  | cons x xs ih =>
      obtain ⟨_, _, hx, hxs⟩ := bind_eq_ok h
      intro y hy
      rcases List.mem_cons.mp hy with rfl | hy
      · exact ⟨_, _, hx⟩
      · exact ih hxs y hy

/-- A column that verifies opens, and each of its rows has a cell. -/
theorem of_verifyColumn_eq_ok {segment : Segment} {column : ℕ} {lines lines' : List String}
    (h : verifyColumn segment column lines = .ok () lines') :
    ∃ c cells, segment.column column {} = .ok c ∧ c.Gives cells := by
  obtain ⟨c, _, hopen, h⟩ := bind_eq_ok h
  have hopen := of_attempt_eq_ok hopen
  cases hrows : countRows column c.numRows 0 c.scan with
  | error f =>
      simp only [hrows] at h
      cases h
  | ok total =>
      obtain ⟨entry, -, hopens⟩ := Segment.opensFrom_of_column hopen
      obtain ⟨-, hat⟩ := RowScan.level_scan hopens.indexed
      obtain ⟨cells, hcells⟩ := cellsFrom_of_countRows hat (Nat.sub_zero _).symm hrows
      obtain ⟨hlen, hcell⟩ := Column.getElem?_of_cellsFrom hcells
      refine ⟨c, cells, hopen, hlen.symm, hopens.indexed, fun j cell hj => .inl ?_⟩
      rw [← hcell j cell hj, Nat.zero_add]

/-- A segment that verifies opens, and all its columns do as well. -/
theorem of_verify_eq_ok {path : String} {found : Except Error File} {lines lines' : List String}
    (h : verify path found lines = .ok () lines') :
    ∃ segment, (found >>= Segment.open) = .ok segment ∧ ∀ column < segment.numColumns,
      ∃ c cells, segment.column column {} = .ok c ∧ c.Gives cells := by
  obtain ⟨segment, _, hopen, h⟩ := bind_eq_ok h
  obtain ⟨_, _, -, h⟩ := bind_eq_ok h
  obtain ⟨_, _, hcolumns, -⟩ := bind_eq_ok h
  refine ⟨segment, of_attempt_eq_ok hopen, fun column hcolumn => ?_⟩
  obtain ⟨_, _, hverify⟩ := of_forM_eq_ok hcolumns column (List.mem_range.mpr hcolumn)
  exact of_verifyColumn_eq_ok hverify

/-! ## What is printed -/

/-- The line of a row. -/
def rowLine (ordinal : ℕ) (cell : Cell) : String :=
  toString ordinal ++ "\t" ++ (cell.map Value.text).getD "NULL"

/-- The lines of `n` rows from an ordinal on. -/
def rowLines (cells : List Cell) (ordinal n : ℕ) : List String :=
  (List.range' ordinal n).map fun i => rowLine i cells[i]?.join

theorem rowLines_add (cells : List Cell) (ordinal m n : ℕ) :
    rowLines cells ordinal (m + n) =
      rowLines cells ordinal m ++ rowLines cells (ordinal + m) n := by
  rw [rowLines, ← List.range'_append_1, List.map_append]
  rfl

theorem printRows_eq {cells found : List Cell} {lines : List String}
    (h : ∀ i cell, found[i]? = some cell → cells[ordinal + i]? = some cell) :
    printRows ordinal found lines =
      .ok () ((rowLines cells ordinal found.length).reverse ++ lines) := by
  induction found generalizing ordinal lines with
  | nil => rfl
  | cons cell found ih =>
      have hfirst : cells[ordinal]?.join = cell := by
        rw [← Nat.add_zero ordinal, h 0 cell rfl, Option.join_some]
      have hrest : ∀ i cell, found[i]? = some cell → cells[ordinal + 1 + i]? = some cell :=
        fun i cell hi => by
          rw [Nat.add_right_comm, Nat.add_assoc]
          exact h (i + 1) cell hi
      have hlines : rowLines cells ordinal (found.length + 1) =
          rowLine ordinal cell :: rowLines cells (ordinal + 1) found.length := by
        rw [Nat.add_comm, rowLines_add, rowLines, List.range'_one, List.map_singleton, hfirst]
        rfl
      rw [List.length_cons, hlines, List.reverse_cons, List.append_assoc]
      exact ih hrest

/-- The rows that remain, or are there, are printed, whatever the batches are. -/
theorem dumpRows_eq {cells : List Cell} (hgives : c.Gives cells) (hat : Scan.At c s ordinal)
    (column remaining : ℕ) (lines : List String) :
    dumpRows column remaining s lines = .ok ()
      ((rowLines cells ordinal (min remaining (cells.length - ordinal))).reverse ++ lines) := by
  induction remaining using Nat.strong_induction_on generalizing s ordinal lines with
  | _ remaining ih =>
      have hle := hat.ordinal_le
      have hrows := hgives.numRows
      rw [dumpRows]
      by_cases hmore : 0 < remaining
      · rw [dif_pos hmore]
        have hlimit : 0 < min remaining dumpBatch := by
          rw [dumpBatch]
          omega
        rcases hat.next_cases hlimit #[] with
          ⟨found, s', hfound, hnext, hat'⟩ | ⟨before, e, s', hlt, hstop, _, _⟩
        · obtain ⟨n, hn⟩ : ∃ n, min (min remaining dumpBatch) (c.numRows - ordinal) = n := ⟨_, rfl⟩
          rw [hn] at hfound hnext hat'
          rw [hnext]
          by_cases hend : n = 0
          · rw [if_pos hend, show min remaining (cells.length - ordinal) = 0 by omega]
            rfl
          · have hlen := (Column.getElem?_of_cellsFrom hfound).1
            have hprint : printRows ordinal found lines =
                .ok () ((rowLines cells ordinal n).reverse ++ lines) := by
              rw [← hlen]
              exact printRows_eq (hgives.getElem?_of_cellsFrom (by omega) hfound)
            have hsplit : min remaining (cells.length - ordinal) =
                n + min (remaining - n) (cells.length - (ordinal + n)) := by
              omega
            simp only [if_neg hend, hat.ordinal_eq, hprint]
            rw [dif_pos (Nat.pos_of_ne_zero hend), ih (remaining - n) (by omega) hat', hsplit,
              rowLines_add, List.reverse_append, List.append_assoc]
        · exact (hgives.failures_of_cellAt (by omega) hstop).elim
      · rw [dif_neg hmore, Nat.eq_zero_of_not_pos hmore, Nat.zero_min]
        rfl

theorem printed_eq (lines : List String) :
    printed lines = String.join (lines.reverse.map (· ++ "\n")) := by
  simp only [printed, String.join, List.foldl_map, String.append_assoc]

/-! ## Dumps -/

theorem attempt_bind {α β : Type} {context : String} {x : Except Error α} {a : α} (h : x = .ok a)
    (f : α → Work β) (lines : List String) : (attempt context x >>= f) lines = f a lines := by
  rw [h]
  rfl

theorem dump_eq {found : Except Error File} {segment : Segment} {cells : List Cell}
    {column first : ℕ} {checked : Bool} (hopen : (found >>= Segment.open) = .ok segment)
    (hcolumn : segment.column column { verifyChecksums := checked } = .ok c)
    (hgives : c.Gives cells) (hfirst : first ≤ c.numRows) (path : String) (limit : ℕ) :
    dump path column first limit checked found [] =
      .ok () ((rowLines cells first (min limit (cells.length - first))).reverse ++ []) := by
  rw [dump, openSegment, attempt_bind hopen, attempt_bind hcolumn]
  obtain ⟨-, hat⟩ := RowScan.level_scan hgives.indexed
  rcases hat.seek_cases first with ⟨hpast, -⟩ | ⟨s, -, hseek, hat'⟩ | ⟨e, s, hlt, hstop, -⟩
  · omega
  · rw [hseek]
    exact dumpRows_eq hgives hat' column limit []
  · exact (hgives.failures_of_cellAt hlt hstop).elim

/-- If a segment verifies, each row of each column has a cell, with checksums compared or not, and a
dump of the column from any of its rows on prints a line for each row up to the limit or the end:
the ordinal, a tab, and the text of the cell. -/
theorem verified_dumps {path : String} {found : Except Error File}
    (hverify : ((Command.verify path).run found).exit = 0) :
    ∃ segment, (found >>= Segment.open) = .ok segment ∧
      ∀ column < segment.numColumns, ∃ cells : List Cell, cells.length = segment.numRows ∧
        (∀ options, ∃ c, segment.column column options = .ok c ∧
          ∀ i cell, cells[i]? = some cell → c.HasCell i cell) ∧
        ∀ other first limit checked, first ≤ segment.numRows →
          (Command.dump other column first limit checked).run found =
            ⟨0, String.join ((List.range' first (min (first + limit) segment.numRows - first)).map
              fun i => rowLine i cells[i]?.join ++ "\n"), ""⟩ := by
  have hwork : ∃ lines, verify path found [] = .ok () lines := by
    rw [Command.run, Command.work] at hverify
    cases hrun : verify path found [] with
    | ok _ lines => exact ⟨lines, rfl⟩
    | error f lines =>
        rw [hrun] at hverify
        cases hverify
  obtain ⟨lines, hwork⟩ := hwork
  obtain ⟨segment, hopen, hcolumns⟩ := of_verify_eq_ok hwork
  refine ⟨segment, hopen, fun column hcolumn => ?_⟩
  obtain ⟨c, cells, hc, hgives⟩ := hcolumns column hcolumn
  obtain ⟨entry, -, hopens⟩ := Segment.opensFrom_of_column hc
  have hall : ∀ options : ReadOptions, ∃ c', segment.column column options = .ok c' ∧
      c'.Gives cells := fun options =>
    ⟨_, segment.column_with hc options, hgives.unchecked hopens.verify_eq _⟩
  have hlen : cells.length = segment.numRows := hgives.numRows.symm.trans hopens.numRows_eq
  refine ⟨cells, hlen, fun options => ?_, fun other first limit checked hfirst => ?_⟩
  · obtain ⟨c', hc', hgives'⟩ := hall options
    exact ⟨c', hc', fun i cell hi => hgives'.hasCell hi⟩
  · obtain ⟨c', hc', hgives'⟩ := hall { verifyChecksums := checked }
    have hpast : first ≤ c'.numRows := by
      rw [hgives'.numRows, hlen]
      exact hfirst
    have hdump := dump_eq hopen hc' hgives' hpast other limit
    have hcount : min limit (cells.length - first) =
        min (first + limit) segment.numRows - first := by
      omega
    rw [Command.run, Command.work, hdump]
    dsimp only
    rw [printed_eq, List.append_nil, List.reverse_reverse, rowLines, List.map_map, hcount]
    rfl

/-- A null, an empty string and one behind a page that ends there. -/
theorem verified_dumps_strings :
    let schema : Schema := {
      columns := [{ uniqueId := 1, name := "a", type := .int },
        { uniqueId := 2, name := "s", type := .varchar }]
      shortKeys := 0
      nonempty := by decide
      distinct := by decide
      keysFirst := by decide
      shortKeys_le := by decide }
    let options : SegmentOptions := { maxRowsPerPage := 2, compression := .none }
    let rows : List Row := [[some (.int32 1), none], [some (.int32 (-2)), some (.bytes [])],
      [some (.int32 3), some (.bytes [97])]]
    ∃ file segment, SegmentWriter.Writes 0 schema options #[] rows file ∧
      ((Command.verify "a").run (.ok (.memory file))).exit = 0 ∧
      Segment.open (.memory file) = .ok segment ∧ segment.numColumns = 2 ∧ segment.numRows = 3 ∧
      ∃ cells : List Cell, cells.length = 3 ∧
        ∀ first limit checked, first ≤ 3 →
          (Command.dump "b" 1 first limit checked).run (.ok (.memory file)) =
            ⟨0, String.join ((List.range' first (min (first + limit) 3 - first)).map
              fun i => rowLine i cells[i]?.join ++ "\n"), ""⟩ := by
  intro schema options rows
  have hrun : ((SegmentWriter.written? 0 schema options #[] rows).bind fun file =>
      (Segment.open (.memory file)).toOption.map fun segment =>
        (((Command.verify "a").run (.ok (.memory file))).exit, segment.numColumns,
          segment.numRows)) = some (0, 2, 3) := by
    decide +kernel
  obtain ⟨file, hfile, hrun⟩ := Option.bind_eq_some_iff.mp hrun
  obtain ⟨segment, hsegment, hrun⟩ := Option.map_eq_some_iff.mp hrun
  obtain ⟨hexit, hrun⟩ := Prod.mk.inj hrun
  obtain ⟨hcolumns, hrows⟩ := Prod.mk.inj hrun
  have hsegment := eq_ok_of_toOption hsegment
  obtain ⟨segment', hopen, hdumps⟩ := verified_dumps hexit
  obtain rfl := Except.ok.inj (hsegment.symm.trans hopen)
  obtain ⟨cells, hlen, -, hdump⟩ := hdumps 1 (by omega)
  rw [hrows] at hlen hdump
  exact ⟨file, segment, SegmentWriter.writes_iff.mpr hfile, hexit, hsegment, hcolumns, hrows, cells,
    hlen, hdump "b"⟩

end Inspect

end Columnar
