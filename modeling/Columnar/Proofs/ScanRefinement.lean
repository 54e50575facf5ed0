import Columnar.Proofs.Calls
import Columnar.Proofs.ColumnCursor
import Columnar.Proofs.ReadingFailures

/-! # Scans refine cursors

Whatever is asked of a scan of a column in memory, one thing after the other, it answers as a cursor
does. In no answer can it be seen which page the scan keeps. -/

namespace Columnar

/-! ## Calls and their answers -/

namespace Scan

/-- What a scan can be asked for. -/
inductive Call
  | first
  | seek (ordinal : ℕ)
  /-- At most `limit` cells, into an output that holds something already. -/
  | next (limit : ℕ) (earlier : Array Cell)

inductive Answer
  | moved (outcome : Except Error Unit)
  | batch (outcome : Except Error BatchStatus) (output : Array Cell)

namespace Answer

variable {σ : Type}

/-- The answer of a move, and the state that is left. -/
def ofMove : EStateM.Result Error σ Unit → Answer × σ
  | .ok _ s => (moved (.ok ()), s)
  | .error e s => (moved (.error e), s)

def ofBatch : EStateM.Result Error (σ × Array Cell) BatchStatus → Answer × σ
  | .ok status (s, output) => (batch (.ok status) output, s)
  | .error e (s, output) => (batch (.error e) output, s)

end Answer

def answer : Call → Scan → Answer × Scan
  | .first, s => (.moved (.ok ()), s.seekFirst)
  | .seek ordinal, s => Answer.ofMove (seek ordinal s)
  | .next limit earlier, s => Answer.ofBatch (next limit (s, earlier))

end Scan

open Scan (Answer)

def Cursor.answer (c : Column) : Scan.Call → ℕ → Answer × ℕ
  | .first, _ => (.moved (.ok ()), 0)
  | .seek ordinal, before => Answer.ofMove (Cursor.seek c ordinal before)
  | .next limit earlier, ordinal => Answer.ofBatch (Cursor.next c limit (ordinal, earlier))

namespace Scan

variable {c : Column} {s : Scan} {ordinal : ℕ}

theorem At.seekFirst (h : At c s ordinal) : At c s.seekFirst 0 :=
  ⟨h.column_eq, ⟨h.sound.indexed, by simp [Scan.seekFirst]⟩, rfl, Nat.zero_le _⟩

theorem At.answer (call : Call) (h : At c s ordinal) :
    (Scan.answer call s).1 = (Cursor.answer c call ordinal).1 ∧
      At c (Scan.answer call s).2 (Cursor.answer c call ordinal).2 := by
  cases call with
  | first => exact ⟨rfl, h.seekFirst⟩
  | seek target =>
      simp only [Scan.answer, Cursor.answer]
      rcases (h.seek target).ok_or_error with
        ⟨_, s', ordinal', hscan, hcursor, hat⟩ | ⟨e, s', ordinal', hscan, hcursor, hat⟩
      all_goals
        rw [hscan, hcursor]
        exact ⟨rfl, hat⟩
  | next limit earlier =>
      simp only [Scan.answer, Cursor.answer]
      rcases (h.next limit earlier earlier).ok_or_error with
        ⟨_, ⟨s', _⟩, _, hscan, hcursor, hat, rfl⟩ | ⟨e, ⟨s', _⟩, _, hscan, hcursor, hat, rfl⟩
      all_goals
        rw [hscan, hcursor]
        exact ⟨rfl, hat⟩

/-- A scan and a cursor at one place give the same answers to all calls. -/
theorem At.answers (h : At c s ordinal) (calls : List Call) :
    (Columnar.answers Scan.answer calls s).1 =
        (Columnar.answers (Cursor.answer c) calls ordinal).1 ∧
      At c (Columnar.answers Scan.answer calls s).2
        (Columnar.answers (Cursor.answer c) calls ordinal).2 :=
  answers_alike (fun call _ _ hat => hat.answer call) calls h

end Scan

/-! ## The loop of a batch -/

/-- The rows of a page of the column are rows of the column. -/
theorem CachedPage.Of.stop_le {c : Column} {page : CachedPage} (h : page.Of c)
    (hindexed : c.Indexed) : page.first + page.cells.size ≤ c.numRows := by
  have hrange : c.index.range? page.index =
      some (page.first, (c.index.first? (page.index + 1)).getD c.index.numRows) := by
    rw [OrdinalIndex.range?, h.first]
    rfl
  have hlen := Column.length_of_readPage hrange h.cells
  obtain ⟨hlt, hle⟩ := OrdinalIndex.range?_bounds hindexed.ordered hrange
  rw [Array.length_toList] at hlen
  rw [← hindexed.rows]
  omega

namespace Scan

/-- The runs of the loop of a batch that come to an end. A round takes what the page has, without
looking whether that is anything. -/
inductive Fills (limit : ℕ) :
    Scan → Array Cell → EStateM.Result Error (Scan × Array Cell) Unit → Prop
  | full {s : Scan} {output : Array Cell}
      (enough : ¬ (output.size < limit ∧ s.ordinal < s.column.numRows)) :
      Fills limit s output (.ok () (s, output))
  | failed {s s' : Scan} {output : Array Cell} {e : Error}
      (more : output.size < limit ∧ s.ordinal < s.column.numRows)
      (failure : load s.ordinal s = .error e s') : Fills limit s output (.error e (s', output))
  | round {s s' : Scan} {output : Array Cell} {page : CachedPage}
      {result : EStateM.Result Error (Scan × Array Cell) Unit}
      (more : output.size < limit ∧ s.ordinal < s.column.numRows)
      (found : load s.ordinal s = .ok page s')
      (rest : let taken := page.cellsFrom s.ordinal (limit - output.size)
        Fills limit { s' with ordinal := s.ordinal + taken.size } (output ++ taken) result) :
      Fills limit s output result

variable {c : Column} {s : Scan} {ordinal : ℕ}

/-- In a page of the column there is no more than the rows that are left. -/
theorem cellsFrom_min {page : CachedPage} (h : page.Of c) (hindexed : c.Indexed)
    (hle : ordinal ≤ c.numRows) (limit : ℕ) :
    page.cellsFrom ordinal (min limit (c.numRows - ordinal)) = page.cellsFrom ordinal limit := by
  have hstop := h.stop_le hindexed
  rw [CachedPage.cellsFrom, CachedPage.cellsFrom, Array.extract_eq_extract_right]
  omega

/-- The loop comes to an end: each page gives it a cell at least. -/
theorem At.fills (h : At c s ordinal) (limit : ℕ) (output : Array Cell) :
    Fills limit s output
      (Scan.fill (min (limit - output.size) (c.numRows - ordinal)) s output) := by
  generalize hwant : min (limit - output.size) (c.numRows - ordinal) = want
  induction want using Nat.strong_induction_on generalizing s ordinal output with
  | _ want ih =>
      have hcolumn := h.column_eq
      have hordinal := h.ordinal_eq
      have hrows := h.ordinal_le
      by_cases hzero : want = 0
      · rw [Scan.fill, if_pos hzero]
        exact .full (by rw [hcolumn, hordinal]; omega)
      · have hmore : output.size < limit ∧ s.ordinal < s.column.numRows := by
          rw [hcolumn, hordinal]
          omega
        rcases h.fill_cases hzero (by omega) output with
          ⟨page, taken, hload, hpage, htaken, hpos, hle, -, hat, hfill⟩ | ⟨e, hload, -, -, hfill⟩
        · have hcells : page.cellsFrom ordinal (limit - output.size) = taken.toArray := by
            rw [← cellsFrom_min hpage h.indexed h.ordinal_le, hwant, htaken]
          have hrest := ih (want - taken.length) (by omega) hat (output ++ taken.toArray)
            (by simp only [Array.size_append, List.size_toArray]; omega)
          rw [hfill]
          refine .round hmore (hordinal.symm ▸ hload) ?_
          simpa only [hordinal, hcells, List.size_toArray] using hrest
        · rw [hfill]
          exact .failed hmore (hordinal.symm ▸ hload)

/-! ## What a call does -/

/-- A batch that is given has the cells of the rows that come next, as many as are asked for and are
there. -/
theorem At.next_read (h : At c s ordinal) {limit k : ℕ} {earlier output : Array Cell} {s' : Scan}
    (hnext : Scan.next limit (s, earlier) = .ok (.read k) (s', output)) :
    k = min limit (c.numRows - ordinal) ∧ 1 ≤ k ∧ output.size = k ∧
      (∀ i cell, output[i]? = some cell → c.HasCell (ordinal + i) cell) ∧
      At c s' (ordinal + k) := by
  have hlimit : 0 < limit := by
    rcases Nat.eq_zero_or_pos limit with rfl | hpos
    · cases hnext
    · exact hpos
  rcases h.next_cases hlimit earlier with
    ⟨cells, s'', hcells, hscan, hat⟩ | ⟨cells, e, s'', -, -, hscan, -⟩
  · obtain ⟨hlen, hcell⟩ := Column.getElem?_of_cellsFrom hcells
    rw [hscan] at hnext
    obtain ⟨hread, hstate⟩ := EStateM.Result.ok.inj hnext
    obtain ⟨rfl, rfl⟩ := Prod.mk.inj hstate
    split at hread
    next => cases hread
    next hpos =>
      cases hread
      refine ⟨rfl, by omega, by rw [List.size_toArray, hlen], fun i cell hi => ?_, hat⟩
      rw [List.getElem?_toArray] at hi
      obtain ⟨hlt, -⟩ := List.getElem?_eq_some_iff.mp hi
      exact (h.indexed.cellAt_eq_ok_iff (by omega)).mp (hcell i cell hi)
  · rw [hscan] at hnext
    cases hnext

theorem At.next_end (h : At c s ordinal) {limit : ℕ} (hlimit : 0 < limit) (earlier : Array Cell) :
    (∃ state, Scan.next limit (s, earlier) = .ok .endOfData state) ↔ ordinal = c.numRows := by
  have hle := h.ordinal_le
  rcases h.next_cases hlimit earlier with
    ⟨cells, s', -, hscan, -⟩ | ⟨cells, e, s', hlt, -, hscan, -⟩
  · rw [hscan]
    by_cases hzero : min limit (c.numRows - ordinal) = 0
    · rw [if_pos hzero]
      exact ⟨fun _ => by omega, fun _ => ⟨_, rfl⟩⟩
    · rw [if_neg hzero]
      refine ⟨?_, fun heq => absurd heq (by omega)⟩
      rintro ⟨state, hwrong⟩
      cases hwrong
  · rw [hscan]
    refine ⟨?_, fun heq => absurd heq (by omega)⟩
    rintro ⟨state, hwrong⟩
    cases hwrong

/-- A seek is refused exactly if there is no such row, nor the end. -/
theorem At.seek_refused (h : At c s ordinal) {bytes : Array UInt8} (hfile : c.file = .memory bytes)
    (target : ℕ) :
    ((∃ cause s', Scan.seek target s = .error (.argument cause) s') ↔ c.numRows < target) ∧
      ∀ cause s', Scan.seek target s = .error (.argument cause) s' → s' = s := by
  rcases h.seek_cases target with
    ⟨hpast, hscan⟩ | ⟨s', hle, hscan, -⟩ | ⟨e, s', hlt, hcell, hscan, -⟩
  · rw [hscan]
    refine ⟨⟨fun _ => hpast, fun _ => ⟨_, s, rfl⟩⟩, fun cause s' heq => ?_⟩
    cases heq
    rfl
  · rw [hscan]
    refine ⟨⟨?_, fun hpast => absurd hle (by omega)⟩, fun cause s'' heq => by cases heq⟩
    rintro ⟨cause, s'', heq⟩
    cases heq
  · -- a cell that cannot be read puts the bytes in doubt, which is not the caller's fault
    have hdoubt := (h.indexed.honest_cellAt hfile hlt).isCorruption hcell
    have hnever : ∀ cause s'', (.error e s' : EStateM.Result Error Scan Unit) ≠
        .error (.argument cause) s'' := by
      rintro cause s'' heq
      cases heq
      cases hdoubt
    rw [hscan]
    exact ⟨⟨fun ⟨cause, s'', heq⟩ => absurd heq (hnever cause s''),
      fun hpast => absurd hpast (by omega)⟩, fun cause s'' heq => absurd heq (hnever cause s'')⟩

end Scan

/-- Whatever was asked of a scan of a column that opened in memory, it answered as a cursor does,
that keeps no page; and so it goes on. A seek is refused, without moving, exactly if there is no
such row; the loop of a batch comes to an end; a batch has the cells of the rows that come next,
each from its page, and there is none exactly at the end. What is answered next depends on the
ordinal alone, however it was reached. -/
theorem scan_refines_cursor {options : ReadOptions} {entry : ColumnMeta} {numRows : ℕ}
    {bytes : Array UInt8} {column : Column}
    (h : Column.open options entry numRows (.memory bytes) = .ok column)
    (calls : List Scan.Call) :
    let (given, s) := answers Scan.answer calls column.scan
    (given, s.ordinal) = answers (Cursor.answer column) calls 0 ∧ s.ordinal ≤ numRows ∧
      (∀ n, ((∃ cause s', Scan.seek n s = .error (.argument cause) s') ↔ numRows < n) ∧
        ∀ cause s', Scan.seek n s = .error (.argument cause) s' → s' = s) ∧
      (∀ limit, 0 < limit →
        (∃ result, Scan.Fills limit s #[] result ∧ ∀ earlier,
          Scan.next limit (s, earlier) = match result with
            | .error e state => .error e state
            | .ok _ (s, output) =>
              .ok (if output.isEmpty then .endOfData else .read output.size) (s, output)) ∧
        ∀ earlier,
          ((∃ state, Scan.next limit (s, earlier) = .ok .endOfData state) ↔ s.ordinal = numRows) ∧
          ∀ k s' output, Scan.next limit (s, earlier) = .ok (.read k) (s', output) →
            k = min limit (numRows - s.ordinal) ∧ 1 ≤ k ∧ output.size = k ∧
              (∀ i cell, output[i]? = some cell → column.HasCell (s.ordinal + i) cell) ∧
              s'.ordinal = s.ordinal + k) ∧
      ∀ others more, let t := (answers Scan.answer others column.scan).2
        t.ordinal = s.ordinal →
          (answers Scan.answer more t).1 = (answers Scan.answer more s).1 := by
  have hopens := Column.of_open_eq_ok h
  have hstart : Scan.At column column.scan 0 :=
    ⟨rfl, ⟨hopens.indexed, by simp [Column.scan]⟩, rfl, Nat.zero_le _⟩
  obtain ⟨hgiven, hat⟩ := hstart.answers calls
  obtain rfl := hopens.numRows_eq
  refine ⟨Prod.ext hgiven hat.ordinal_eq, ?_, fun n => hat.seek_refused hopens.file_eq n,
    fun limit hlimit => ⟨⟨_, ?_, fun earlier => if_neg (Nat.ne_of_gt hlimit)⟩,
      fun earlier => ⟨?_, fun k s' output hnext => ?_⟩⟩, fun others more heq => ?_⟩
  · rw [hat.ordinal_eq]
    exact hat.ordinal_le
  · rw [hat.column_eq, hat.ordinal_eq]
    exact hat.fills limit #[]
  · rw [hat.ordinal_eq]
    exact hat.next_end hlimit earlier
  · obtain ⟨hk, hpos, hsize, hcells, hat'⟩ := hat.next_read hnext
    rw [hat.ordinal_eq]
    exact ⟨hk, hpos, hsize, hcells, hat'.ordinal_eq⟩
  · obtain ⟨-, hat'⟩ := hstart.answers others
    rw [hat.ordinal_eq, hat'.ordinal_eq] at heq
    rw [heq] at hat'
    rw [(hat.answers more).1, (hat'.answers more).1]

/-- The first of two pages reads, the second is damaged. -/
theorem scan_refines_cursor_damaged :
    let page (n : UInt8) := Page.withChecksum [1, 0, n, 0, 0, 0]
    let index : List PageEntry := [⟨0, ⟨0, 10⟩⟩, ⟨1, ⟨10, 10⟩⟩]
    let bytes := (page 7 ++ (page 8).set 2 9 ++ OrdinalIndex.encode index).toArray
    let entry : ColumnMeta := {
      id := 0, uniqueId := 1, type := .int, length := 0, isNullable := false
      encoding := .plain, compression := .none, numRows := 2
      pages := #[⟨0, 10⟩, ⟨10, 10⟩], ordinalIndex := some ⟨20, 44⟩ }
    let calls : List Scan.Call := [.seek 1, .first, .next 1 #[none], .next 1 #[]]
    ∃ column, Column.open {} entry 2 (.memory bytes) = .ok column ∧
      let (given, s) := answers Scan.answer calls column.scan
      (given, s.ordinal) = answers (Cursor.answer column) calls 0 ∧ s.ordinal = 1 ∧
        (∃ cause s', Scan.seek 3 s = .error (.argument cause) s') ∧
          ¬ ∃ state, Scan.next 1 (s, #[]) = .ok .endOfData state := by
  intro page index bytes entry calls
  have hrun : ((Column.open {} entry 2 (.memory bytes)).toOption.map fun column =>
      (answers (Cursor.answer column) calls 0).2) = some 1 := by decide +kernel
  obtain ⟨column, hcolumn, hordinal⟩ := Option.map_eq_some_iff.mp hrun
  have hopen := eq_ok_of_toOption hcolumn
  obtain ⟨hgiven, -, hseek, hnext, -⟩ := scan_refines_cursor hopen calls
  have hplace := (congrArg Prod.snd hgiven).trans hordinal
  refine ⟨column, hopen, hgiven, hplace, (hseek 3).1.mpr (by decide), fun hend => ?_⟩
  have hwrong := (((hnext 1 Nat.one_pos).2 #[]).1.mp hend).symm.trans hplace
  cases hwrong

end Columnar
