import Columnar.Lz4.Matcher
import Columnar.Proofs.Machine.Rows
import Columnar.Proofs.SegmentFailures

/-! # Segments made of any bytes

Whatever a file in memory holds, no step of reading it is stopped. What opening and reading leaves
unchecked cannot go wrong, and what is wrong is found out by a check, which puts the bytes in doubt.
-/

namespace Columnar

open Machine (Gives InFile Outcome Run)

section

variable {σ α : Type}

/-- The machine is not stopped. It gives what is to be given, and fails only at bytes that are in
doubt. -/
def Safe (m : Outcome α) (x : Except Error α) : Prop := Gives m x ∧ Honest x fun _ => True

/-- So does a run that starts in a state, which it leaves as it is to be left. -/
def SafeFrom (s : σ) (m : Run σ α) (x : EStateM Error σ α) : Prop :=
  m s = some (settle (x s)) ∧ Honest (settle (x s)).1 fun _ => True

/-- Where nothing comes of it, an error tells that the bytes are in doubt. -/
theorem Safe.error {m : Outcome α} {x : Except Error α} (h : Safe m x) (hx : x.toOption = none) :
    ∃ e, Gives m (.error e) ∧ e.isCorruption = true := by
  obtain ⟨hgives, hhonest⟩ := h
  cases x with
  | ok a => cases hx
  | error e => exact ⟨e, hgives, hhonest.isCorruption rfl⟩

theorem SafeFrom.error {s : σ} {m : Run σ α} {x : EStateM Error σ α} (h : SafeFrom s m x)
    (hx : outcome? (x s) = none) :
    ∃ e s', m s = some (.error e, s') ∧ e.isCorruption = true := by
  obtain ⟨hrun, hhonest⟩ := h
  cases hxs : x s with
  | ok a s' =>
      rw [hxs] at hx
      cases hx
  | error e s' =>
      rw [hxs] at hrun
      exact ⟨e, s', hrun, hhonest.of_run hxs⟩

end

section

variable {bytes : Array UInt8} (hsize : bytes.size < 2 ^ 64)
include hsize

/-! ## One column -/

theorem Column.safe_readPage {c : Column} (h : c.Indexed) (hfile : c.file = .memory bytes) {k : ℕ}
    (hk : k < c.numPages) : Safe (Machine.readPage c k) (c.readPage k) := by
  obtain ⟨first, hfirst⟩ := OrdinalIndex.first?_isSome hk
  have hrange : c.index.range? k =
      some (first, (c.index.first? (k + 1)).getD c.index.numRows) := by
    rw [OrdinalIndex.range?, hfirst, Option.map_some]
  exact ⟨Machine.gives_readPage hsize h hfile k,
    (Column.honest_readPage hfile hrange).mono fun _ _ _ => trivial⟩

theorem Scan.At.safe_seek {c : Column} {s : Scan} {ordinal : ℕ} (h : Scan.At c s ordinal)
    (hfile : c.file = .memory bytes) {target : ℕ} (hle : target ≤ c.numRows) :
    SafeFrom s (Machine.seek target) (Scan.seek target) :=
  ⟨Machine.seek_eq hsize hfile h target, h.honest_seek hfile hle⟩

theorem Scan.At.safe_next {c : Column} {s : Scan} {ordinal : ℕ} (h : Scan.At c s ordinal)
    (hfile : c.file = .memory bytes) {limit : ℕ} (hlimit : 0 < limit) (earlier : Array Cell) :
    SafeFrom (s, earlier) (Machine.next limit) (Scan.next limit) :=
  ⟨Machine.next_eq hsize hfile h limit earlier, h.honest_next hfile hlimit earlier⟩

/-! ## All columns -/

namespace RowScan

variable {columns : List Column} {r : RowScan}

omit hsize in
theorem Coherent.inFile (h : Coherent columns r) (hfile : ∀ c ∈ columns, c.file = .memory bytes) :
    ∀ s ∈ r.columns, InFile bytes s := by
  intro s hs
  obtain ⟨k, hk⟩ := List.mem_iff_getElem?.mp hs
  obtain ⟨c, hc, -, hat⟩ := forall₂_getElem? h.stands hk
  have hcolumn := hat.column_eq
  subst hcolumn
  exact ⟨hfile _ (List.mem_of_getElem? hc), hat⟩

omit hsize in
theorem Coherent.numRows_lt (h : Coherent columns r) : r.numRows < 2 ^ 64 := by
  obtain ⟨c, hc⟩ := List.exists_mem_of_ne_nil _ h.nonempty
  obtain ⟨k, hk⟩ := List.mem_iff_getElem?.mp hc
  obtain ⟨s, -, hrows, -⟩ := forall₂_getElem? h.stands.flip hk
  exact hrows ▸ c.entry.numRows.toNat_lt

theorem Coherent.safe_seek (h : Coherent columns r) (hfile : ∀ c ∈ columns, c.file = .memory bytes)
    {target : ℕ} (hle : target ≤ r.numRows) :
    SafeFrom r (Machine.seekRows target) (RowScan.seek target) :=
  ⟨Machine.seekRows_eq hsize (h.inFile hfile) target, h.honest_seek hfile hle⟩

theorem Coherent.safe_next (h : Coherent columns r) (hfile : ∀ c ∈ columns, c.file = .memory bytes)
    {limit : ℕ} (hlimit : 0 < limit) (earlier : RowBlock) :
    SafeFrom (r, earlier) (Machine.nextRows limit) (RowScan.next limit) :=
  ⟨Machine.nextRows_eq hsize (h.inFile hfile) earlier fun _ _ hread =>
    (h.read_le hread).trans_lt h.numRows_lt, h.honest_next hfile hlimit earlier⟩

theorem safe_seek_nil (h : r.columns = []) (target : ℕ) :
    SafeFrom r (Machine.seekRows target) (RowScan.seek target) := by
  refine ⟨Machine.seekRows_eq hsize (by simp [h]) target, ?_⟩
  rw [seek_nil h]
  exact .ok trivial

theorem safe_next_nil (h : r.columns = []) {limit : ℕ} (hlimit : 0 < limit) (earlier : RowBlock) :
    SafeFrom (r, earlier) (Machine.nextRows limit) (RowScan.next limit) := by
  have hnext := next_nil h hlimit earlier
  refine ⟨Machine.nextRows_eq hsize (by simp [h]) earlier fun n state hread => ?_, ?_⟩
  · rw [hnext] at hread
    cases hread
  · rw [hnext]
    exact .ok trivial

end RowScan

/-! ## One segment -/

namespace Segment

variable {s : Segment} (h : Segment.open (.memory bytes) = .ok s)
include h

theorem safe_shortKeys : Safe (Machine.shortKeys s) s.shortKeys :=
  have hfile := (of_open_eq_ok h).1
  ⟨Machine.gives_shortKeys hsize hfile, honest_shortKeys hfile⟩

theorem safe_column {id : ℕ} (hid : id < s.numColumns) (options : ReadOptions) :
    Safe (Machine.openColumnOf s id options) (s.column id options) :=
  ⟨Machine.gives_openColumnOf hsize (of_open_eq_ok h).1 id options,
    (honest_column h hid options).mono fun _ _ _ => trivial⟩

theorem safe_rows (options : ReadOptions) : Safe (Machine.rows s options) (s.rows options) :=
  ⟨Machine.gives_rows hsize (of_open_eq_ok h).1 options, honest_rows h options⟩

end Segment

end

/-- Whatever a file holds, reading it as a segment comes to an end, and is not stopped by a position
that is not there nor by a number that is no word. It fails only if the bytes are in doubt, or if
they end in a footer of another version. From a segment that opens, its short keys, its columns and
their pages are read no worse, and so is what scans are asked for, whatever was asked before. -/
theorem any_bytes_safe {bytes : Array UInt8} (hsize : bytes.size < 2 ^ 64) :
    Gives (Machine.openSegment bytes) (Segment.open (.memory bytes)) ∧
      (∀ e, Segment.open (.memory bytes) = .error e → e.isCorruption = true ∨
        ∃ body version rest, version ≠ Footer.supportedVersion ∧
          Segment.Sealed bytes body (version :: rest) ∧
          e = .unsupported (.footerVersion version Footer.supportedVersion)) ∧
      ∀ segment, Segment.open (.memory bytes) = .ok segment → ∀ options : ReadOptions,
        Safe (Machine.shortKeys segment) segment.shortKeys ∧
        (∀ id < segment.numColumns,
          Safe (Machine.openColumnOf segment id options) (segment.column id options)) ∧
        (∀ id < segment.numColumns, ∀ column, segment.column id options = .ok column →
          (∀ k < column.numPages, Safe (Machine.readPage column k) (column.readPage k)) ∧
          ∀ calls, let s := (answers Scan.answer calls column.scan).2
            (∀ k ≤ column.numRows, SafeFrom s (Machine.seek k) (Scan.seek k)) ∧
            ∀ m > 0, ∀ earlier, SafeFrom (s, earlier) (Machine.next m) (Scan.next m)) ∧
        Safe (Machine.rows segment options) (segment.rows options) ∧
        ∀ scan, segment.rows options = .ok scan →
          ∀ calls, let r := RowScan.after calls scan
            (∀ k ≤ segment.numRows, SafeFrom r (Machine.seekRows k) (RowScan.seek k)) ∧
            ∀ m > 0, ∀ earlier, SafeFrom (r, earlier) (Machine.nextRows m) (RowScan.next m) := by
  refine ⟨Machine.gives_openSegment hsize, fun e he => Segment.isCorruption_or_version he,
    fun segment h options => ⟨Segment.safe_shortKeys hsize h,
      fun id hid => Segment.safe_column hsize h hid options, fun id hid column hcolumn => ?_,
      Segment.safe_rows hsize h options, fun scan hscan calls => ?_⟩⟩
  · obtain ⟨hindexed, hfile, -⟩ := (Segment.honest_column h hid options).holds hcolumn
    have hstart : Scan.At column column.scan 0 := (RowScan.level_scan hindexed).2
    refine ⟨fun k hk => Column.safe_readPage hsize hindexed hfile hk, fun calls => ?_⟩
    have hat := (hstart.answers calls).2
    exact ⟨fun k hk => hat.safe_seek hsize hfile hk,
      fun m hm earlier => hat.safe_next hsize hfile hm earlier⟩
  · rcases Segment.after_rows h hscan calls with hnil | ⟨columns, hcoherent, hrows, hfile⟩
    · exact ⟨fun k _ => RowScan.safe_seek_nil hsize hnil k,
        fun m hm earlier => RowScan.safe_next_nil hsize hnil hm earlier⟩
    · exact ⟨fun k hk => hcoherent.safe_seek hsize hfile (hrows ▸ hk),
        fun m hm earlier => hcoherent.safe_next hsize hfile hm earlier⟩

attribute [local instance] Lz4.matcher

/-- The second page of a column is damaged. It is found out where the page is read. -/
theorem any_bytes_safe_damaged :
    let schema : Schema := {
      columns := [{ uniqueId := 1, name := "a", type := .int }]
      shortKeys := 0
      nonempty := by decide
      distinct := by decide
      keysFirst := by decide
      shortKeys_le := by decide }
    let options : SegmentOptions := { maxRowsPerPage := 1, compression := .none }
    let rows : List Row := [[some (.int32 1)], [some (.int32 2)]]
    ∃ file, SegmentWriter.Writes 0 schema options #[] rows file ∧
      let bytes := file.set! 17 3
      bytes.size < 2 ^ 64 ∧ ∃ segment column scan, Segment.open (.memory bytes) = .ok segment ∧
        segment.column 0 {} = .ok column ∧ segment.rows {} = .ok scan ∧
        (∃ e, Gives (Machine.readPage column 1) (.error e) ∧ e.isCorruption = true) ∧
        ∃ e state, Machine.nextRows 2 (scan, ⟨[]⟩) = some (.error e, state) ∧
          e.isCorruption = true := by
  intro schema options rows
  have hrun : ((SegmentWriter.written? 0 schema options #[] rows).bind fun file =>
      (Segment.open (.memory (file.set! 17 3))).toOption.bind fun segment =>
        (segment.column 0 {}).toOption.bind fun column =>
          (segment.rows {}).toOption.map fun scan =>
            (decide ((file.set! 17 3).size < 2 ^ 64), segment.numColumns, column.numPages,
              (column.readPage 1).toOption.isNone,
              (outcome? (RowScan.next 2 (scan, ⟨[]⟩))).isNone)) =
        some (true, 1, 2, true, true) := by
    decide +kernel
  obtain ⟨file, hfile, hrun⟩ := Option.bind_eq_some_iff.mp hrun
  obtain ⟨segment, hsegment, hrun⟩ := Option.bind_eq_some_iff.mp hrun
  obtain ⟨column, hcolumn, hrun⟩ := Option.bind_eq_some_iff.mp hrun
  obtain ⟨scan, hscan, hrun⟩ := Option.map_eq_some_iff.mp hrun
  simp only [Prod.mk.injEq, decide_eq_true_eq, Option.isNone_iff_eq_none] at hrun
  obtain ⟨hsize, hcolumns, hpages, hpage, hbatch⟩ := hrun
  have hopen := eq_ok_of_toOption hsegment
  obtain ⟨-, -, hreads⟩ := any_bytes_safe hsize
  obtain ⟨-, -, hcolumnReads, -, hrowReads⟩ := hreads segment hopen {}
  obtain ⟨hsafePage, -⟩ := hcolumnReads 0 (by omega) column (eq_ok_of_toOption hcolumn)
  obtain ⟨-, hsafeBatch⟩ := hrowReads scan (eq_ok_of_toOption hscan) []
  exact ⟨file, SegmentWriter.writes_iff.mpr hfile, hsize, segment, column, scan, hopen,
    eq_ok_of_toOption hcolumn, eq_ok_of_toOption hscan,
    (hsafePage 1 (by omega)).error hpage, (hsafeBatch 2 Nat.two_pos ⟨[]⟩).error hbatch⟩

end Columnar
