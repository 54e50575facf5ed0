import Columnar.Proofs.ColumnScan

/-! # A scan is a cursor

A cursor is a place in a column. It keeps no page: each cell is read from its page anew. A scan does
what a cursor does that stands at the same place. -/

namespace Columnar

/-! ## Cursors -/

namespace Cursor

variable (c : Column)

/-- Reads cells one after the other, up to the first that cannot be read. -/
def read : ℕ → EStateM Error (ℕ × Array Cell) Unit
  | 0 => fun state => .ok () state
  | n + 1 => fun (ordinal, output) =>
    match c.cellAt ordinal with
    | .ok cell => read n (ordinal + 1, output.push cell)
    | .error e => .error e (ordinal, output)

/-- Reads at most `limit` cells into the output, which is emptied first. -/
def next (limit : ℕ) : EStateM Error (ℕ × Array Cell) BatchStatus := fun (ordinal, _) =>
  if limit = 0 then .error (.argument .emptyBatch) (ordinal, #[])
  else
    match read c (min limit (c.numRows - ordinal)) (ordinal, #[]) with
    | .error e state => .error e state
    | .ok _ (ordinal, output) =>
      .ok (if output.isEmpty then .endOfData else .read output.size) (ordinal, output)

/-- Goes to an ordinal; the number of rows stands for the end. Whether the cell there can be read is
found out at once. -/
def seek (ordinal : ℕ) : EStateM Error ℕ Unit := fun before =>
  if c.numRows < ordinal then .error (.argument (.seek ordinal c.numRows)) before
  else if ordinal < c.numRows then
    match c.cellAt ordinal with
    | .ok _ => .ok () ordinal
    | .error e => .error e ordinal
  else .ok () ordinal

variable {c} {ordinal m n : ℕ} {output : Array Cell} {cells : List Cell} {e : Error}

/-- Cells that can be read are read before what comes behind them. -/
theorem read_add (h : c.cellsFrom ordinal m = .ok cells) :
    read c (m + n) (ordinal, output) = read c n (ordinal + m, output ++ cells.toArray) := by
  induction m generalizing ordinal output cells with
  | zero =>
      cases h
      simp
  | succ m ih =>
      rw [Column.cellsFrom_succ] at h
      obtain ⟨cell, hcell, h⟩ := of_bind_eq_ok h
      obtain ⟨rest, hrest, h⟩ := of_bind_eq_ok h
      cases h
      rw [Nat.add_right_comm, read]
      simp only [hcell]
      rw [ih hrest, Nat.add_right_comm ordinal, Nat.add_assoc ordinal]
      simp

theorem read_eq_error (hn : n ≠ 0) (h : c.cellAt ordinal = .error e) :
    read c n (ordinal, output) = .error e (ordinal, output) := by
  obtain ⟨n, rfl⟩ := Nat.exists_eq_succ_of_ne_zero hn
  simp only [read, h]

/-- Either all cells are read, or those before one that cannot be read. -/
theorem read_cases (c : Column) (ordinal n : ℕ) (output : Array Cell) :
    (∃ cells, c.cellsFrom ordinal n = .ok cells ∧
      read c n (ordinal, output) = .ok () (ordinal + n, output ++ cells.toArray)) ∨
    ∃ cells e, cells.length < n ∧ c.cellsFrom ordinal cells.length = .ok cells ∧
      c.cellAt (ordinal + cells.length) = .error e ∧ c.cellsFrom ordinal n = .error e ∧
      read c n (ordinal, output) = .error e (ordinal + cells.length, output ++ cells.toArray) := by
  induction n generalizing ordinal output with
  | zero => exact .inl ⟨[], rfl, by simp [read]⟩
  | succ n ih =>
      cases hcell : c.cellAt ordinal with
      | error e =>
          refine .inr ⟨[], e, Nat.succ_pos n, rfl, hcell, ?_, ?_⟩
          · rw [Column.cellsFrom_succ, hcell]
            rfl
          · rw [read_eq_error n.succ_ne_zero hcell]
            simp
      | ok cell =>
          have hone : c.cellsFrom ordinal 1 = .ok [cell] := by
            rw [Column.cellsFrom_succ, hcell]
            rfl
          have hfrom := c.cellsFrom_succ ordinal n
          have hread : read c (1 + n) (ordinal, output) = _ := read_add hone
          rw [hcell] at hfrom
          rw [Nat.add_comm 1 n] at hread
          rcases ih (ordinal + 1) (output ++ #[cell]) with
            ⟨cells, hcells, hrest⟩ | ⟨cells, e, hlt, hcells, hstop, hall, hrest⟩
          · refine .inl ⟨cell :: cells, ?_, ?_⟩
            · rw [hfrom, hcells]
              rfl
            · rw [hread, hrest]
              simp [Nat.add_assoc, Nat.add_comm 1 n]
          · refine .inr ⟨cell :: cells, e, Nat.succ_lt_succ hlt, ?_, ?_, ?_, ?_⟩
            · rw [List.length_cons, Column.cellsFrom_succ, hcell, hcells]
              rfl
            · rw [← hstop, List.length_cons, Nat.add_assoc, Nat.add_comm 1]
            · rw [hfrom, hall]
              rfl
            · rw [hread, hrest]
              simp [Nat.add_assoc, Nat.add_comm 1]

/-- A batch has all cells that are asked for and are there, or fails at the first of them that
cannot be read. -/
theorem next_cases (c : Column) (ordinal : ℕ) {limit : ℕ} (hlimit : 0 < limit)
    (earlier : Array Cell) :
    let n := min limit (c.numRows - ordinal)
    (∃ cells, c.cellsFrom ordinal n = .ok cells ∧ next c limit (ordinal, earlier) =
        .ok (if n = 0 then .endOfData else .read n) (ordinal + n, cells.toArray)) ∨
      ∃ cells e, cells.length < n ∧ c.cellsFrom ordinal cells.length = .ok cells ∧
        c.cellAt (ordinal + cells.length) = .error e ∧
        next c limit (ordinal, earlier) =
          .error e (ordinal + cells.length, cells.toArray) := by
  intro n
  have hnext : next c limit (ordinal, earlier) =
      match read c n (ordinal, #[]) with
      | .error e state => .error e state
      | .ok _ (ordinal, output) =>
        .ok (if output.isEmpty then .endOfData else .read output.size) (ordinal, output) :=
    if_neg (Nat.ne_of_gt hlimit)
  rw [hnext]
  rcases read_cases c ordinal n #[] with ⟨cells, hcells, hread⟩ |
    ⟨cells, e, hlt, hcells, hstop, -, hread⟩
  · refine .inl ⟨cells, hcells, ?_⟩
    have hlen := (Column.getElem?_of_cellsFrom hcells).1
    rw [hread]
    simp [← hlen]
  · refine .inr ⟨cells, e, hlt, hcells, hstop, ?_⟩
    rw [hread]
    simp

end Cursor

/-! ## Runs that end alike -/

/-- Both runs end well with the same answer, or fail for the same reason, and leave states that are
related. -/
inductive EndAlike {ε α σ τ : Type} (R : σ → τ → Prop) :
    EStateM.Result ε σ α → EStateM.Result ε τ α → Prop
  | ok (a : α) {s : σ} {t : τ} (states : R s t) : EndAlike R (.ok a s) (.ok a t)
  | error (e : ε) {s : σ} {t : τ} (states : R s t) : EndAlike R (.error e s) (.error e t)

theorem EndAlike.ok_or_error {ε α σ τ : Type} {R : σ → τ → Prop} {x : EStateM.Result ε σ α}
    {y : EStateM.Result ε τ α} (h : EndAlike R x y) :
    (∃ a s t, x = .ok a s ∧ y = .ok a t ∧ R s t) ∨
      ∃ e s t, x = .error e s ∧ y = .error e t ∧ R s t := by
  cases h with
  | ok a states => exact .inl ⟨a, _, _, rfl, rfl, states⟩
  | error e states => exact .inr ⟨e, _, _, rfl, rfl, states⟩

namespace Scan

variable {c : Column} {s : Scan} {ordinal : ℕ}

/-- The scan stands at an ordinal of the column. -/
structure At (c : Column) (s : Scan) (ordinal : ℕ) : Prop where
  column_eq : s.column = c
  sound : s.Sound
  ordinal_eq : s.ordinal = ordinal
  ordinal_le : ordinal ≤ c.numRows

/-- The scan stands where the cursor does, and both have read the same. -/
def Beside (c : Column) (x : Scan × Array Cell) (y : ℕ × Array Cell) : Prop :=
  At c x.1 y.1 ∧ x.2 = y.2

theorem At.indexed (h : At c s ordinal) : c.Indexed := h.column_eq ▸ h.sound.indexed

theorem At.drop (h : At c s ordinal) : At c { s with cached := none } ordinal :=
  ⟨h.column_eq, ⟨h.sound.indexed, by simp⟩, h.ordinal_eq, h.ordinal_le⟩

/-- A round of the loop takes cells from the page of the row, one at least, or ends the loop where
the page does not read. -/
theorem At.fill_cases (h : At c s ordinal) {want : ℕ} (hwant : want ≠ 0)
    (hrows : ordinal + want ≤ c.numRows) (output : Array Cell) :
    (∃ (page : CachedPage) (taken : List Cell),
      let s' := { s with ordinal := ordinal + taken.length, cached := some page }
      load ordinal s = .ok page { s with cached := some page } ∧ page.Of c ∧
        page.cellsFrom ordinal want = taken.toArray ∧ 0 < taken.length ∧ taken.length ≤ want ∧
        c.cellsFrom ordinal taken.length = .ok taken ∧ At c s' (ordinal + taken.length) ∧
        fill want s output = fill (want - taken.length) s' (output ++ taken.toArray)) ∨
    ∃ e, let s' := { s with cached := none }
      load ordinal s = .error e s' ∧ c.cellAt ordinal = .error e ∧ At c s' ordinal ∧
        fill want s output = .error e (s', output) := by
  have hdrop := h.drop
  obtain ⟨rfl, hsound, rfl, hle⟩ := h
  rw [Scan.fill, if_neg hwant]
  cases hread : s.column.readPage (s.column.index.findPage s.ordinal) with
  | error e =>
      have hload := load_eq_error hsound (by omega) hread
      refine .inr ⟨e, hload, ?_, hdrop, by rw [hload]⟩
      rw [Column.cellAt, hread]
      rfl
  | ok cells =>
      obtain ⟨page, taken, hload, hpage, htaken, hpos, htaken_le, hcells⟩ :=
        load_cells hsound (Nat.pos_of_ne_zero hwant) hrows hread
      refine .inl ⟨page, taken, hload, hpage, htaken, hpos, htaken_le, hcells,
        ⟨rfl, hsound.keep hpage _, rfl, by omega⟩, ?_⟩
      rw [hload]
      simp only [htaken, List.size_toArray]
      exact dif_pos hpos

/-- Page by page a scan reads what a cursor reads cell by cell. -/
theorem At.fill (h : At c s ordinal) {want : ℕ} (hrows : ordinal + want ≤ c.numRows)
    (output : Array Cell) :
    EndAlike (Beside c) (fill want s output) (Cursor.read c want (ordinal, output)) := by
  induction want using Nat.strong_induction_on generalizing s ordinal output with
  | _ want ih =>
      by_cases hwant : want = 0
      · subst hwant
        rw [Scan.fill, if_pos rfl]
        exact .ok () ⟨h, rfl⟩
      · rcases h.fill_cases hwant hrows output with
          ⟨page, taken, -, -, -, hpos, hle, hcells, hat, hfill⟩ | ⟨e, -, hcell, hat, hfill⟩
        · have hrest := ih (want - taken.length) (by omega) hat (by omega)
            (output ++ taken.toArray)
          have hadd : Cursor.read c (taken.length + (want - taken.length)) (ordinal, output) = _ :=
            Cursor.read_add hcells
          rw [Nat.add_sub_of_le hle] at hadd
          rw [hfill, hadd]
          exact hrest
        · rw [hfill, Cursor.read_eq_error hwant hcell]
          exact .error e ⟨hat, rfl⟩

/-- A batch of a scan is that of a cursor. -/
theorem At.next (h : At c s ordinal) (limit : ℕ) (earlier earlier' : Array Cell) :
    EndAlike (Beside c) (Scan.next limit (s, earlier))
      (Cursor.next c limit (ordinal, earlier')) := by
  have hle := h.ordinal_le
  have hrows : ordinal + min limit (c.numRows - ordinal) ≤ c.numRows := by omega
  have hfill := h.fill hrows #[]
  simp only [Scan.next, Cursor.next, h.column_eq, h.ordinal_eq]
  by_cases hlimit : limit = 0
  · rw [if_pos hlimit, if_pos hlimit]
    exact .error _ ⟨h, rfl⟩
  · rw [if_neg hlimit, if_neg hlimit]
    rcases hfill.ok_or_error with
      ⟨_, ⟨s', output⟩, ⟨position, _⟩, hscan, hcursor, hat, rfl⟩ |
      ⟨e, state, state', hscan, hcursor, hstate⟩
    · rw [hscan, hcursor]
      exact .ok _ ⟨hat, rfl⟩
    · rw [hscan, hcursor]
      exact .error e hstate

theorem seek_eq (target : ℕ) (s : Scan) :
    Scan.seek target s =
      if s.column.numRows < target then .error (.argument (.seek target s.column.numRows)) s
      else if target < s.column.numRows then
        match load target { s with ordinal := target } with
        | .ok _ s' => .ok () s'
        | .error e s' => .error e s'
      else .ok () { s with ordinal := target } := by
  rw [Scan.seek, get_bind]
  by_cases hpast : s.column.numRows < target
  · simp only [if_pos hpast]
    rfl
  · simp only [if_neg hpast]
    by_cases hin : target < s.column.numRows
    · simp only [if_pos hin]
      change EStateM.bind (load target) _ { s with ordinal := target } = _
      rw [EStateM.bind]
      cases load target { s with ordinal := target } <;> rfl
    · simp only [if_neg hin]
      rfl

/-- So is a seek. -/
theorem At.seek (h : At c s ordinal) (target : ℕ) :
    EndAlike (At c) (Scan.seek target s) (Cursor.seek c target ordinal) := by
  obtain ⟨rfl, hsound, rfl, hle⟩ := h
  rw [seek_eq, Cursor.seek]
  by_cases hpast : s.column.numRows < target
  · rw [if_pos hpast, if_pos hpast]
    exact .error _ ⟨rfl, hsound, rfl, hle⟩
  · rw [if_neg hpast, if_neg hpast]
    have hmoved : Sound { s with ordinal := target } := ⟨hsound.indexed, hsound.kept⟩
    by_cases hin : target < s.column.numRows
    · rw [if_pos hin, if_pos hin]
      cases hread : s.column.readPage (s.column.index.findPage target) with
      | error e =>
          rw [load_eq_error hmoved hin hread, Column.cellAt, hread]
          exact .error e ⟨rfl, ⟨hsound.indexed, by simp⟩, rfl, by omega⟩
      | ok cells =>
          obtain ⟨page, -, hload, hpage, -⟩ :=
            load_cells hmoved Nat.one_pos (by simp only; omega) hread
          rw [hload, Column.cellAt, hread]
          exact .ok () ⟨rfl, hsound.keep hpage target, rfl, by omega⟩
    · rw [if_neg hin, if_neg hin]
      exact .ok () ⟨rfl, hmoved, rfl, by omega⟩

/-! ## What a call does -/

/-- A batch has all cells that are asked for and are there, or fails at the first of them that
cannot be read. -/
theorem At.next_cases (h : At c s ordinal) {limit : ℕ} (hlimit : 0 < limit)
    (earlier : Array Cell) :
    let n := min limit (c.numRows - ordinal)
    (∃ cells s', c.cellsFrom ordinal n = .ok cells ∧ Scan.next limit (s, earlier) =
        .ok (if n = 0 then .endOfData else .read n) (s', cells.toArray) ∧ At c s' (ordinal + n)) ∨
      ∃ (cells : List Cell) (e : Error) (s' : Scan), cells.length < n ∧
        c.cellAt (ordinal + cells.length) = .error e ∧
        Scan.next limit (s, earlier) = .error e (s', cells.toArray) ∧
        At c s' (ordinal + cells.length) := by
  intro n
  have halike := h.next limit earlier earlier
  rcases Cursor.next_cases c ordinal hlimit earlier with
    ⟨cells, hcells, hcursor⟩ | ⟨cells, e, hlt, -, hstop, hcursor⟩
  · rw [hcursor] at halike
    rcases halike.ok_or_error with ⟨_, ⟨s', _⟩, _, hscan, heq, hat, rfl⟩ | ⟨_, _, _, -, heq, -⟩
    · cases heq
      exact .inl ⟨cells, s', hcells, hscan, hat⟩
    · cases heq
  · rw [hcursor] at halike
    rcases halike.ok_or_error with ⟨_, _, _, -, heq, -⟩ | ⟨_, ⟨s', _⟩, _, hscan, heq, hat, rfl⟩
    · cases heq
    · cases heq
      exact .inr ⟨cells, e, s', hlt, hstop, hscan, hat⟩

/-- A seek goes to the ordinal, even if it fails because the cell there cannot be read. It stays
where it is only if it is refused. -/
theorem At.seek_cases (h : At c s ordinal) (target : ℕ) :
    (c.numRows < target ∧
        Scan.seek target s = .error (.argument (.seek target c.numRows)) s) ∨
      (∃ s', target ≤ c.numRows ∧ Scan.seek target s = .ok () s' ∧ At c s' target) ∨
      ∃ e s', target < c.numRows ∧ c.cellAt target = .error e ∧
        Scan.seek target s = .error e s' ∧ At c s' target := by
  have halike := h.seek target
  by_cases hpast : c.numRows < target
  · refine .inl ⟨hpast, ?_⟩
    rw [seek_eq, h.column_eq, if_pos hpast]
  · rw [Cursor.seek, if_neg hpast] at halike
    by_cases hin : target < c.numRows
    · rw [if_pos hin] at halike
      cases hcell : c.cellAt target with
      | ok cell =>
          rw [hcell] at halike
          rcases halike.ok_or_error with ⟨_, s', _, hscan, heq, hat⟩ | ⟨_, _, _, -, heq, -⟩
          · cases heq
            exact .inr (.inl ⟨s', hin.le, hscan, hat⟩)
          · cases heq
      | error e =>
          rw [hcell] at halike
          rcases halike.ok_or_error with ⟨_, _, _, -, heq, -⟩ | ⟨_, s', _, hscan, heq, hat⟩
          · cases heq
          · cases heq
            exact .inr (.inr ⟨e, s', hin, rfl, hscan, hat⟩)
    · rw [if_neg hin] at halike
      rcases halike.ok_or_error with ⟨_, s', _, hscan, heq, hat⟩ | ⟨_, _, _, -, heq, -⟩
      · cases heq
        exact .inr (.inl ⟨s', by omega, hscan, hat⟩)
      · cases heq

end Scan

end Columnar
