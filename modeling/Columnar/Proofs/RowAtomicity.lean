import Columnar.Lz4.Matcher
import Columnar.Proofs.WriterFailures

/-! # Rows that are refused

A row that is refused before a column sees it leaves the writer as it was, and no column refuses its
cell after that. But the key of the row comes last: where it begins a block and the keys before it
have reached 4 GiB, the columns keep the cells of a row that the segment does not count. -/

namespace Columnar

/-- A column that took one more cell is not in the state that it was in. -/
theorem ColumnTask.Open.not_push [Lz4.Compressor] {t : ColumnTask} {w : ColumnWriter}
    (h : t.Open w) (c : Cell) : ¬ (t.push c).Open w := by
  intro hpush
  have hrows := congrArg ColumnMeta.numRows (h.1.entry.symm.trans hpush.1.entry)
  simp [ColumnTask.push, ColumnPlan.runsOf, Page.cells_runsOf] at hrows

/-- Columns that each took one more cell are not in the state that they were in. -/
theorem ColumnTask.columns_ne [Lz4.Compressor] {ts : List ColumnTask} {ws ws' : List ColumnWriter}
    {row : Row}
    (hopen : List.Forall₂ Open ts ws) (hpush : List.Forall₂ Open (List.zipWith push ts row) ws')
    (hlen : row.length = ws.length) (hne : ws ≠ []) : ws' ≠ ws := by
  rintro rfl
  cases hopen with
  | nil => exact hne rfl
  | cons ht hts =>
      cases row with
      | nil => cases hlen
      | cons c row =>
          cases hpush with
          | cons ht' _ => exact ht.not_push c ht'

namespace SegmentWriter

variable {id : UInt32} {schema : Schema} {options : SegmentOptions} {w w' : SegmentWriter}

/-! ## What calls leave -/

/-- The states that calls leave a writer in, whatever came of them. -/
inductive Reachable [Lz4.Compressor] (id : UInt32) (schema : Schema) (options : SegmentOptions) :
    SegmentWriter → Prop
  | created : Reachable id schema options { id, schema, options }
  | init {w : SegmentWriter} (target : Except Error OutputFile)
      (before : Reachable id schema options w) :
      Reachable id schema options (settle (init target w)).2
  | append {w : SegmentWriter} (row : Row) (before : Reachable id schema options w) :
      Reachable id schema options (settle (append row w)).2
  | finalize {w : SegmentWriter} (before : Reachable id schema options w) :
      Reachable id schema options (settle (finalize w)).2

/-- What holds of a writer as long as it takes rows, also when rows were refused. -/
structure Ready [Lz4.Compressor] (w : SegmentWriter) : Prop where
  columns : ∃ ts, List.Forall₂ ColumnTask.Open ts w.columns ∧ ∀ t ∈ ts, t.Accepted
  nonempty : w.columns ≠ []
  shortKeys : ∃ d, w.shortKeys = some d ∧ d.finalized = false

/-- The row passes all that is looked at before a column gets its cell. -/
structure Admits (w : SegmentWriter) (row : Row) : Prop where
  stage : w.stage.isOpen = true
  width : row.length = w.columns.length
  cells : checkCells w.columns row = .ok ()

/-- The next row begins a block, but the keys leave no place for another. -/
structure KeysFull (w : SegmentWriter) : Prop where
  block : w.numRows % w.options.numRowsPerBlock = 0
  keys : ∃ d, w.shortKeys = some d ∧ 2 ^ 32 ≤ d.keyBytes.size

/-! ## The key of a row -/

variable [Lz4.Compressor]

theorem Ready.addKey_of_full (h : w.Ready) (hfull : w.KeysFull) (row : Row) :
    addKey row w = .error (.unsupported .shortKeyBytes) w := by
  obtain ⟨d, hd, hopen⟩ := h.shortKeys
  obtain ⟨_, hd', hlong⟩ := hfull.keys
  cases hd.symm.trans hd'
  have hrefused : d.refusal? = some (.unsupported .shortKeyBytes) := by
    rw [ShortKeyDraft.refusal?, hopen, if_neg Bool.false_ne_true, if_pos hlong]
  simp only [addKey, hfull.block, hd, Option.bind_some, hrefused]
  rfl

theorem Ready.pushKey (h : w.Ready) (row : Row) : (w.pushKey row).Ready := by
  obtain ⟨d, hd, hopen⟩ := h.shortKeys
  rw [pushKey_eq, hd]
  exact ⟨h.columns, h.nonempty, _, rfl, hopen⟩

theorem Ready.addKey_of_not_full (h : w.Ready) (hroom : ¬ w.KeysFull) (row : Row) :
    ∃ w', addKey row w = .ok () w' ∧ w'.Ready := by
  by_cases hblock : w.numRows % w.options.numRowsPerBlock = 0
  · obtain ⟨d, hd, hopen⟩ := h.shortKeys
    have hshort : ¬ 2 ^ 32 ≤ d.keyBytes.size := fun hlong => hroom ⟨hblock, d, hd, hlong⟩
    have hplace : d.refusal? = none := by
      rw [ShortKeyDraft.refusal?, hopen, if_neg Bool.false_ne_true, if_neg hshort]
    refine ⟨w.pushKey row, ?_, h.pushKey row⟩
    simp only [addKey, hblock, hd, Option.bind_some, hplace]
    rfl
  · exact ⟨w, if_pos hblock, h⟩

/-! ## One row -/

/-- The columns of a writer take the cells of a row that is admitted. -/
theorem Ready.appendCells_eq_ok (h : w.Ready) {row : Row} (hrow : w.Admits row) :
    ∃ columns, appendCells row w.columns = .ok () columns ∧ columns ≠ w.columns ∧
      Ready { w with columns } := by
  obtain ⟨ts, hopen, haccepted⟩ := h.columns
  obtain ⟨columns, hcells, hopen', haccepted'⟩ :=
    appendCells_of_checkCells hopen haccepted hrow.width hrow.cells
  have hlen : columns.length = w.columns.length := by
    rw [← hopen'.length_eq, List.length_zipWith, hopen.length_eq, hrow.width, Nat.min_self]
  have hne : columns ≠ [] := by
    rintro rfl
    exact h.nonempty (List.length_eq_zero_iff.mp hlen.symm)
  exact ⟨columns, hcells, ColumnTask.columns_ne hopen hopen' hrow.width h.nonempty,
    ⟨_, hopen', haccepted'⟩, hne, h.shortKeys⟩

/-- A row is refused without a trace; or the columns take their cells, and the row is taken unless
its key has no place. -/
theorem Ready.append_cases (h : w.Ready) (row : Row) :
    (¬ w.Admits row ∧ ∃ e, append row w = .error e w) ∨
      w.Admits row ∧ ∃ columns, appendCells row w.columns = .ok () columns ∧
        columns ≠ w.columns ∧ Ready { w with columns } ∧
        (w.KeysFull → append row w = .error (.unsupported .shortKeyBytes) { w with columns }) ∧
        (¬ w.KeysFull → ∃ w', append row w = .ok () w' ∧ w'.Ready) := by
  rw [append_eq]
  cases hopen : w.stage.isOpen with
  | false => exact .inl ⟨fun hrow => (nomatch hopen.symm.trans hrow.stage), _, rfl⟩
  | true =>
      rw [if_neg (by simp)]
      by_cases hwidth : row.length = w.columns.length
      · rw [if_neg (not_not.mpr hwidth)]
        cases hcheck : checkCells w.columns row with
        | error e =>
            exact .inl ⟨fun hrow => (nomatch hcheck.symm.trans hrow.cells), e, rfl⟩
        | ok _ =>
            have hrow : w.Admits row := ⟨hopen, hwidth, hcheck⟩
            obtain ⟨columns, hcells, hmoved, hready⟩ := h.appendCells_eq_ok hrow
            refine .inr ⟨hrow, columns, hcells, hmoved, hready, fun hfull => ?_, fun hroom => ?_⟩
            · have hkey := hready.addKey_of_full ⟨hfull.block, hfull.keys⟩ row
              simp only [hcells, hkey]
            · obtain ⟨w', hkey, hready'⟩ :=
                hready.addKey_of_not_full (fun hfull => hroom ⟨hfull.block, hfull.keys⟩) row
              simp only [hcells, hkey]
              exact ⟨_, rfl, hready'.columns, hready'.nonempty, hready'.shortKeys⟩
      · exact .inl ⟨fun hrow => hwidth hrow.width, _, if_pos hwidth⟩

/-- A row leaves a writer ready, whatever comes of it. -/
theorem Ready.append (h : w.Ready) (row : Row) : (settle (SegmentWriter.append row w)).2.Ready := by
  rcases h.append_cases row with ⟨-, e, hrun⟩ | ⟨-, columns, -, -, hready, hfull, hroom⟩
  · rw [hrun]
    exact h
  · by_cases hkeys : w.KeysFull
    · rw [hfull hkeys]
      exact hready
    · obtain ⟨w', hrun, hready'⟩ := hroom hkeys
      rw [hrun]
      exact hready'

/-! ## All calls -/

/-- A writer that was made ready has a column for each of its schema, and no keys yet. -/
theorem ready_of_init {target : Except Error OutputFile} (h : init target w = .ok () w') :
    w'.Ready := by
  obtain ⟨_, w₁, hrequire, h⟩ := bind_eq_ok h
  obtain ⟨-, rfl⟩ := require_eq_ok hrequire
  obtain ⟨_, w₂, hget, h⟩ := bind_eq_ok h
  cases hget
  dsimp only at h
  obtain ⟨hzero, h⟩ := check_eq_ok h
  obtain ⟨hblock, h⟩ := check_eq_ok h
  cases hws : columnWriters w.options 0 w.schema.columns with
  | error e => simp only [hws] at h; cases h
  | ok ws =>
      have hle := SegmentPlan.rows_le_of_columnWriters w.schema.nonempty hws
      let plan : SegmentPlan := ⟨w.id, w.schema, w.options, by omega, hle, by omega, by omega⟩
      have hopen := plan.columnWriters_eq_ok hws
      have hsome : ws ≠ [] := by
        rintro rfl
        have hlen := hopen.length_eq
        rw [SegmentPlan.length_tasksFrom] at hlen
        exact w.schema.nonempty (List.length_eq_zero_iff.mp hlen)
      cases target with
      | error e => simp only [hws] at h; cases h
      | ok file =>
          simp only [hws] at h
          cases h
          refine ⟨⟨_, hopen, fun t ht c hc => ?_⟩, hsome, _, rfl, rfl⟩
          rw [SegmentPlan.cells_of_mem_tasksFrom ht] at hc
          cases hc

theorem Reachable.ready (h : Reachable id schema options w) (hopen : w.stage.isOpen = true) :
    w.Ready := by
  induction h with
  | created => cases hopen
  | @init w target _ ih =>
      cases hrun : SegmentWriter.init target w with
      | ok _ w' =>
          exact ready_of_init hrun
      | error e w' =>
          obtain rfl := init_eq_error hrun
          rw [hrun] at hopen
          exact ih hopen
  | @append w row _ ih =>
      cases hstage : w.stage.isOpen with
      | true => exact (ih hstage).append row
      | false =>
          rw [append_of_closed row hstage] at hopen
          cases hstage.symm.trans hopen
  | @finalize w _ ih =>
      cases hstage : w.stage.isOpen with
      | true => rw [stage_finalize hstage] at hopen; cases hopen
      | false =>
          rw [finalize_of_closed hstage] at hopen
          cases hstage.symm.trans hopen

/-! ## Rows that are taken -/

theorem checkCells_eq_ok {ts : List ColumnTask} {ws : List ColumnWriter} {row : Row}
    (hopen : List.Forall₂ ColumnTask.Open ts ws)
    (hrow : List.Forall₂ (fun t c => t.plan.Accepts c) ts row) : checkCells ws row = .ok () := by
  induction hopen generalizing row with
  | nil => cases row <;> rfl
  | cons ht _ ih =>
      cases hrow with
      | cons hc hrest =>
          rw [checkCells, ht.1.check, hc]
          exact ih hrest

theorem Reachable.appendAll (h : Reachable id schema options w) {rows : List Row}
    (hrun : appendAll rows w = .ok () w') : Reachable id schema options w' := by
  induction rows generalizing w with
  | nil =>
      cases hrun
      exact h
  | cons row rows ih =>
      obtain ⟨w₁, hrow, hrest⟩ := appendAll_cons_eq_ok hrun
      have hnext := h.append row
      rw [hrow] at hnext
      exact ih hnext hrest

end SegmentWriter

namespace SegmentPlan

open SegmentWriter (Admits KeysFull)

variable {plan : SegmentPlan} {initial : Array UInt8} {rows : List Row} {w w' : SegmentWriter}

/-- If each row begins a block, each has its key. -/
theorem blockKeys_eq_map (hone : plan.options.numRowsPerBlock = 1) (rows : List Row) :
    plan.blockKeys rows = rows.map plan.schema.shortKey := by
  induction rows using List.reverseRecOn with
  | nil => exact plan.blockKeys_nil
  | append_singleton rows row ih =>
      rw [blockKeys_concat, hone, if_pos (Nat.mod_one _), ih, List.map_append, List.map_singleton]

variable [Lz4.Compressor]

theorem Holds.ready (h : plan.Holds initial rows w) : w.Ready := by
  obtain ⟨d, hd, hholds⟩ := h.shortKeys
  refine ⟨⟨_, h.columns, h.accepted⟩, fun hnone => ?_, d, hd, hholds.finalized⟩
  have hlen := h.columns.length_eq
  rw [hnone, tasks, length_tasksFrom] at hlen
  exact plan.schema.nonempty (List.length_eq_zero_iff.mp hlen)

theorem Holds.keysFull_iff (h : plan.Holds initial rows w) :
    w.KeysFull ↔ rows.length % plan.options.numRowsPerBlock = 0 ∧
      2 ^ 32 ≤ (plan.blockKeys rows).flatten.length := by
  obtain ⟨d, hd, hholds⟩ := h.shortKeys
  have hsize : d.keyBytes.size = (plan.blockKeys rows).flatten.length := by
    rw [ByteArray.size, ← Array.length_toList, hholds.keyBytes]
  rw [← hsize, ← h.numRows, ← h.options]
  constructor
  · rintro ⟨hblock, d', hd', hlong⟩
    cases hd.symm.trans hd'
    exact ⟨hblock, hlong⟩
  · rintro ⟨hblock, hlong⟩
    exact ⟨hblock, d, hd, hlong⟩

/-- Rows of the right cells are taken as long as the keys before each leave it a place. -/
theorem Holds.appendAll_eq_ok (h : plan.Holds initial rows w) {more : List Row}
    (hrows : ∀ row ∈ more, ∀ before,
      List.Forall₂ (fun t c => t.plan.Accepts c) (plan.tasks before) row)
    (hroom : ∀ k < more.length, (plan.blockKeys (rows ++ more.take k)).flatten.length < 2 ^ 32) :
    ∃ w', SegmentWriter.appendAll more w = .ok () w' ∧ plan.Holds initial (rows ++ more) w' := by
  induction more generalizing rows w with
  | nil => exact ⟨w, rfl, by rwa [List.append_nil]⟩
  | cons row more ih =>
      have hcells := hrows row List.mem_cons_self rows
      have hrow : w.Admits row := ⟨h.stage, hcells.length_eq.symm.trans h.columns.length_eq,
        SegmentWriter.checkCells_eq_ok h.columns hcells⟩
      have hplace : ¬ w.KeysFull := fun hfull => by
        have hlong := (h.keysFull_iff.mp hfull).2
        have hshort := hroom 0 (Nat.succ_pos _)
        rw [List.take_zero, List.append_nil] at hshort
        omega
      rcases h.ready.append_cases row with ⟨hno, -⟩ | ⟨-, columns, -, -, -, -, htaken⟩
      · exact absurd hrow hno
      · obtain ⟨w₁, hrun, -⟩ := htaken hplace
        have hnext := h.append hrun
        have hroom' : ∀ k < more.length,
            (plan.blockKeys (rows ++ [row] ++ more.take k)).flatten.length < 2 ^ 32 := by
          intro k hk
          have hlater := hroom (k + 1) (Nat.succ_lt_succ hk)
          rwa [List.take_succ_cons, List.append_cons] at hlater
        obtain ⟨w', hrest, hholds⟩ :=
          ih hnext (fun r hr => hrows r (List.mem_cons_of_mem _ hr)) hroom'
        rw [List.append_cons]
        exact ⟨w', by simp only [SegmentWriter.appendAll, hrun, hrest], hholds⟩

end SegmentPlan

namespace SegmentWriter

variable {id : UInt32} {schema : Schema} {options : SegmentOptions} {w w' : SegmentWriter}

/-! ## Keys that fill 4 GiB -/

/-- One column of strings, which are in the key of their row as a whole. -/
def nameSchema : Schema where
  columns :=
    [{ uniqueId := 1, name := "s", type := .varchar, indexLength := 0, isKey := true }]
  shortKeys := 1
  nonempty := by decide
  distinct := by decide
  keysFirst := by decide
  shortKeys_le := by decide

/-- Each row begins a block. -/
def keyEachRow : SegmentOptions where
  numRowsPerBlock := 1
  compression := .none
  dataPageSize := 10 ^ 12
  maxRowsPerPage := 2 ^ 20

/-- Zeros take two bytes of a key each. -/
def zeros : Bytes := List.replicate 2048 0

def nameRow (name : Bytes) : Row := [some (.bytes name)]

/-- Two short names and `n` long ones. -/
def nameRows (n : ℕ) : List Row :=
  nameRow [] :: nameRow [255] :: List.replicate n (nameRow zeros)

theorem exists_name_of_mem {n : ℕ} {row : Row} (h : row ∈ nameRows n) :
    ∃ name, row = nameRow name := by
  rcases List.mem_cons.mp h with rfl | h
  · exact ⟨_, rfl⟩
  · rcases List.mem_cons.mp h with rfl | h
    · exact ⟨_, rfl⟩
    · exact ⟨_, List.eq_of_mem_replicate h⟩

theorem length_shortKey_nameRow (name : Bytes) :
    (nameSchema.shortKey (nameRow name)).length = (SortKey.escape name).length + 3 := by
  change (SortKey.marker false :: (SortKey.escape name ++ [0, 0]) ++ []).length = _
  simp

theorem length_escape_zeros : (SortKey.escape zeros).length = 4096 := by
  rw [SortKey.escape, zeros, List.length_flatMap, List.map_replicate, List.sum_replicate_nat]
  rfl

theorem length_keys_nameRows (n : ℕ) :
    ((nameRows n).map nameSchema.shortKey).flatten.length = 4099 * n + 7 := by
  rw [nameRows, List.map_cons, List.map_cons, List.map_replicate, List.flatten_cons,
    List.flatten_cons, List.length_append, List.length_append, List.length_flatten,
    List.map_replicate, List.sum_replicate_nat, length_shortKey_nameRow, length_shortKey_nameRow,
    length_shortKey_nameRow, length_escape_zeros, SortKey.escape, SortKey.escape]
  simp
  omega

theorem length_keys_take_nameRows {k n : ℕ} (hk : k < (nameRows (n + 1)).length) :
    (((nameRows (n + 1)).take k).map nameSchema.shortKey).flatten.length ≤ 4099 * n + 7 := by
  have hlast : nameRows (n + 1) = nameRows n ++ [nameRow zeros] := by
    rw [nameRows, List.replicate_succ']
    rfl
  rw [hlast, List.length_append, List.length_singleton] at hk
  rw [hlast, List.take_append_of_le_length (Nat.lt_succ_iff.mp hk), ← length_keys_nameRows n]
  conv_rhs => rw [← List.take_append_drop k (nameRows n), List.map_append, List.flatten_append,
    List.length_append]
  exact Nat.le_add_right _ _

/-- The names are all taken, and their keys reach 4 GiB. -/
theorem nameRows_fill_keys [Lz4.Compressor] :
    ∃ w₀ w, init (.ok (.memory #[])) { id := 0, schema := nameSchema, options := keyEachRow } =
        .ok () w₀ ∧ appendAll (nameRows 1047809) w₀ = .ok () w ∧
      Reachable 0 nameSchema keyEachRow w ∧ w.Ready ∧ w.KeysFull ∧
      ∀ name, w.Admits (nameRow name) := by
  obtain ⟨w₀, hinit⟩ : ∃ w₀, init (.ok (.memory #[]))
      { id := 0, schema := nameSchema, options := keyEachRow } = .ok () w₀ := ⟨_, rfl⟩
  obtain ⟨plan, hid, hschema, hoptions, hholds⟩ := SegmentPlan.init_eq_ok hinit
  have hone : plan.options.numRowsPerBlock = 1 := by rw [hoptions]; rfl
  have hcells : ∀ name before,
      List.Forall₂ (fun t c => t.plan.Accepts c) (plan.tasks before) (nameRow name) := by
    intro name before
    rw [SegmentPlan.tasks, hschema]
    exact .cons rfl .nil
  have hroom : ∀ k < (nameRows 1047809).length,
      (plan.blockKeys ([] ++ (nameRows 1047809).take k)).flatten.length < 2 ^ 32 := by
    intro k hk
    rw [List.nil_append, SegmentPlan.blockKeys_eq_map hone, hschema]
    exact (length_keys_take_nameRows (n := 1047808) hk).trans_lt (by omega)
  obtain ⟨w, hall, hw⟩ := hholds.appendAll_eq_ok (fun row hrow before => by
    obtain ⟨name, rfl⟩ := exists_name_of_mem hrow
    exact hcells name before) hroom
  have hfull : w.KeysFull := by
    rw [hw.keysFull_iff, hone, List.nil_append, SegmentPlan.blockKeys_eq_map hone, hschema,
      length_keys_nameRows]
    exact ⟨Nat.mod_one _, by omega⟩
  have hreached : Reachable 0 nameSchema keyEachRow w₀ := by
    have h : Reachable 0 nameSchema keyEachRow _ := .init (.ok (.memory #[])) .created
    rwa [hinit] at h
  exact ⟨w₀, w, hinit, hall, hreached.appendAll hall, hw.ready, hfull, fun name =>
    ⟨hw.stage, (hcells name _).length_eq.symm.trans hw.columns.length_eq,
      checkCells_eq_ok hw.columns (hcells name _)⟩⟩

/-! ## Rows that fail -/

/-- A row that fails leaves everything as it was, unless it was admitted while the keys were full.
Then the columns keep its cells, and nothing else changes. -/
theorem failed_row_leaves_no_trace_iff [Lz4.Compressor] (h : Reachable id schema options w)
    {row : Row} {e : Error} (hrun : append row w = .error e w') :
    (w' = w ↔ ¬ (w.Admits row ∧ w.KeysFull)) ∧
      (w' ≠ w → e = .unsupported .shortKeyBytes ∧
        appendCells row w.columns = .ok () w'.columns ∧ w' = { w with columns := w'.columns }) := by
  cases hopen : w.stage.isOpen with
  | false =>
      cases (append_of_closed row hopen).symm.trans hrun
      exact ⟨iff_of_true rfl fun hrow => (nomatch hopen.symm.trans hrow.1.stage),
        fun hmoved => absurd rfl hmoved⟩
  | true =>
      rcases (h.ready hopen).append_cases row with
        ⟨hno, e', hrun'⟩ | ⟨hrow, columns, hcells, hmoved, -, hfull, hroom⟩
      · cases hrun'.symm.trans hrun
        exact ⟨iff_of_true rfl fun hrow => hno hrow.1, fun hmoved => absurd rfl hmoved⟩
      · by_cases hkeys : w.KeysFull
        · cases (hfull hkeys).symm.trans hrun
          have hne : { w with columns } ≠ w := fun hsame =>
            hmoved (congrArg SegmentWriter.columns hsame)
          exact ⟨iff_of_false hne (not_not.mpr ⟨hrow, hkeys⟩), fun _ => ⟨rfl, hcells, rfl⟩⟩
        · obtain ⟨w'', htaken, -⟩ := hroom hkeys
          cases htaken.symm.trans hrun

attribute [local instance] Lz4.matcher

/-- A number is refused by a column of strings without a trace; a name is not, once the keys are
full. -/
theorem failed_row_leaves_no_trace_of_number :
    (∃ w e w', Reachable 0 nameSchema keyEachRow w ∧ w.stage = .initialized ∧
        append [some (.int8 5)] w = .error e w' ∧ w' = w) ∧
      ∃ w w', Reachable 0 nameSchema keyEachRow w ∧
        append (nameRow [120]) w = .error (.unsupported .shortKeyBytes) w' ∧ w' ≠ w ∧
        w' = { w with columns := w'.columns } := by
  constructor
  · have hreached : Reachable 0 nameSchema keyEachRow _ := .init (.ok (.memory #[])) .created
    obtain ⟨e, hrun⟩ : ∃ e, append [some (.int8 5)] (settle (init (.ok (.memory #[]))
      { id := 0, schema := nameSchema, options := keyEachRow })).2 = .error e _ := ⟨_, rfl⟩
    have hkept := (failed_row_leaves_no_trace_iff hreached hrun).1
    exact ⟨_, _, _, hreached, rfl, rfl, hkept.mpr fun hrow => by cases hrow.1.cells⟩
  · obtain ⟨-, w, -, -, hreached, hready, hfull, hrow⟩ := nameRows_fill_keys
    rcases hready.append_cases (nameRow [120]) with ⟨hno, -⟩ | ⟨-, columns, -, -, -, hrun, -⟩
    · exact absurd (hrow _) hno
    · obtain ⟨hkept, hmoved⟩ := failed_row_leaves_no_trace_iff hreached (hrun hfull)
      have hne := mt hkept.mp (not_not.mpr ⟨hrow _, hfull⟩)
      exact ⟨w, _, hreached, hrun hfull, hne, (hmoved hne).2.2⟩

/-- The names reach 4 GiB of keys. The next row fails, but the column has taken its cell. -/
theorem row_behind_full_keys_moves_column :
    ∃ w₀ w w', init (.ok (.memory #[])) { id := 0, schema := nameSchema, options := keyEachRow } =
        .ok () w₀ ∧ appendAll (nameRows 1047809) w₀ = .ok () w ∧
      Reachable 0 nameSchema keyEachRow w ∧
      append (nameRow [120]) w = .error (.unsupported .shortKeyBytes) w' ∧
      w'.columns ≠ w.columns ∧ w'.numRows = w.numRows := by
  obtain ⟨w₀, w, hinit, hall, hreached, hready, hfull, hrow⟩ := nameRows_fill_keys
  rcases hready.append_cases (nameRow [120]) with ⟨hno, -⟩ | ⟨-, columns, -, hmoved, -, hrun, -⟩
  · exact absurd (hrow _) hno
  · exact ⟨w₀, w, _, hinit, hall, hreached, hrun hfull, hmoved, rfl⟩

end SegmentWriter

end Columnar
