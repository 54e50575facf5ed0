import Columnar.Proofs.SegmentRows

/-! # The file of a segment

Behind what the file held before come the sections of all columns, the short-key index, the footer
and the trailer. -/

namespace Columnar

/-- The stored form of the short-key index with these keys. -/
def ShortKeyIndex.stored (segmentId rowsPerBlock : UInt32) (numRows : ℕ) (keys : List Bytes) :
    Bytes :=
  let offsets := (List.range keys.length).flatMap fun k =>
    Bytes.little 4 (keys.take k).flatten.length
  Bytes.little 4 segmentId.toNat ++ Bytes.little 4 rowsPerBlock.toNat
    ++ Bytes.little 4 keys.length ++ Bytes.little 4 numRows ++ Bytes.little 4 keys.flatten.length
    ++ Bytes.little 4 offsets.length ++ Bytes.little 4 (crc32c (keys.flatten ++ offsets)).toNat
    ++ keys.flatten ++ offsets

/-- The keys and their offsets are stored as they were gathered, behind the header that counts
them. -/
theorem ShortKeyDraft.slices_of_finalize {d d' : ShortKeyDraft} {numRows : ℕ}
    {slices : ShortKeySlices} (h : finalize numRows d = .ok slices d') :
    numRows < 2 ^ 32 ∧ slices.keys = d.keyBytes.data.toList ∧
      slices.offsets = (d.offsets.toList.flatMap fun o => Bytes.little 4 o.toNat) ∧
      slices.header =
        Bytes.little 4 d.segmentId.toNat ++ Bytes.little 4 d.numRowsPerBlock.toNat
          ++ Bytes.little 4 d.numItems ++ Bytes.little 4 numRows
          ++ Bytes.little 4 slices.keys.length ++ Bytes.little 4 slices.offsets.length
          ++ Bytes.little 4 (crc32c (slices.keys ++ slices.offsets)).toNat := by
  obtain ⟨_, d₁, hget, h⟩ := bind_eq_ok h
  cases hget
  obtain ⟨-, h⟩ := check_eq_ok h
  obtain ⟨_, d₂, hset, h⟩ := bind_eq_ok h
  cases hset
  obtain ⟨hrows, h⟩ := check_eq_ok h
  cases h
  exact ⟨Nat.lt_of_not_le hrows, rfl, rfl, rfl⟩

namespace SegmentWriter

open ColumnWriter (Appends Leads)

variable {step : ColumnWriter.Output Unit} {ws ws' : List ColumnWriter} {file : Array UInt8}

/-! ## A step of all columns -/

/-- The step of the first column, and then those of the others. -/
theorem eachOf_cons_eq_ok {w : ColumnWriter} {out : OutputFile} (happends : Appends step)
    (h : eachOf step (w :: ws) (.memory file) = .ok () (ws', out)) :
    ∃ w₁ ws₁, ∃ more : Bytes, ws' = w₁ :: ws₁ ∧
      step (w, .memory file) = .ok () (w₁, .memory (file ++ more)) ∧
      eachOf step ws (.memory (file ++ more)) = .ok () (ws₁, out) := by
  simp only [eachOf] at h
  cases hw : step (w, .memory file) with
  | error e s => simp only [hw] at h; cases h
  | ok _ s =>
      obtain ⟨w₁, out₁⟩ := s
      obtain ⟨more, rfl⟩ := happends _ _ _ hw
      simp only [hw] at h
      cases hws : eachOf step ws (.memory (file ++ more)) with
      | error e s => simp only [hws] at h; cases h
      | ok _ s =>
          simp only [hws] at h
          cases h
          exact ⟨w₁, s.1, more, rfl, rfl, hws⟩

theorem eachOf_appends (happends : Appends step) {out : OutputFile}
    (h : eachOf step ws (.memory file) = .ok () (ws', out)) :
    ∃ more : Bytes, out = .memory (file ++ more) := by
  induction ws generalizing ws' file with
  | nil =>
      cases h
      exact ⟨[], by simp⟩
  | cons w ws ih =>
      obtain ⟨w₁, ws₁, more, -, -, hrest⟩ := eachOf_cons_eq_ok happends h
      obtain ⟨more', hfile⟩ := ih hrest
      exact ⟨more ++ more', by rw [hfile, appendList_append]⟩

/-- What each step does for its column stays done while the other columns take theirs. -/
theorem eachOf_leads {P Q : ColumnTask → ColumnWriter → Array UInt8 → Prop}
    (happends : Appends step) (hleads : ∀ t, Leads (P t) step (Q t))
    (hP : ∀ t w file (more : Bytes), P t w file → P t w (file ++ more))
    (hQ : ∀ t w file (more : Bytes), Q t w file → Q t w (file ++ more)) {ts : List ColumnTask}
    {file' : Array UInt8} (hts : List.Forall₂ (P · · file) ts ws)
    (h : eachOf step ws (.memory file) = .ok () (ws', .memory file'))
    (hsize : file'.size < 2 ^ 64) : List.Forall₂ (Q · · file') ts ws' := by
  induction ws generalizing ts ws' file with
  | nil =>
      cases hts
      cases h
      exact .nil
  | cons w ws ih =>
      obtain ⟨t, ts, ht, htail, rfl⟩ := List.forall₂_cons_right_iff.mp hts
      obtain ⟨w₁, ws₁, more, rfl, hw, hrest⟩ := eachOf_cons_eq_ok happends h
      obtain ⟨more', hfile⟩ := eachOf_appends happends hrest
      cases hfile
      have hsize₁ : (file ++ more).size < 2 ^ 64 := by
        simp only [Lz4.size_appendList] at hsize ⊢
        omega
      have hfirst := hleads t _ _ _ _ ht hw hsize₁
      exact .cons (hQ _ _ _ more' hfirst)
        (ih (htail.imp fun _ _ hu => hP _ _ _ more hu) hrest)

/-! ## The short-key index and the footer -/

variable {plan : SegmentPlan} {w w' : SegmentWriter}

theorem finalize_keys {keys : List Bytes} {d d' : ShortKeyDraft} {numRows : ℕ}
    {slices : ShortKeySlices} (h : plan.HoldsKeys keys d)
    (hrun : ShortKeyDraft.finalize numRows d = .ok slices d') :
    numRows < 2 ^ 32 ∧ slices.header ++ slices.keys ++ slices.offsets =
      ShortKeyIndex.stored plan.id (UInt32.ofNat plan.options.numRowsPerBlock) numRows keys := by
  obtain ⟨hrows, hbytes, hslices, hheader⟩ := ShortKeyDraft.slices_of_finalize hrun
  refine ⟨hrows, ?_⟩
  have hcount : d.offsets.size = keys.length := by
    have hlen := congrArg List.length h.offsets
    simpa using hlen
  have hoffsets : (d.offsets.toList.flatMap fun o => Bytes.little 4 o.toNat) =
      (List.range keys.length).flatMap fun k => Bytes.little 4 (keys.take k).flatten.length := by
    have hmap := congrArg (List.flatMap (Bytes.little 4)) h.offsets
    rwa [List.flatMap_map, List.flatMap_map] at hmap
  simp only [hheader, hslices, hbytes, ShortKeyIndex.stored, h.segmentId, h.rowsPerBlock,
    h.keyBytes, hoffsets, hcount, ShortKeyDraft.numItems]

/-- The parts of the index are appended one behind the other. -/
theorem writeShortKeys_slices {d : ShortKeyDraft} {p : Pointer}
    (hrun : writeShortKeys w = .ok p w') (hdraft : w.shortKeys = some d) :
    ∃ slices d', ShortKeyDraft.finalize w.numRows d = .ok slices d' ∧
      Pointer.new ((w.output.map OutputFile.size).getD 0)
        (slices.header.length + slices.keys.length + slices.offsets.length) = .ok p ∧
      w' = { w with
        shortKeys := none
        output := ((w.output.map (·.append slices.header)).map (·.append slices.keys)).map
          (·.append slices.offsets) } := by
  obtain ⟨_, w₁, hget, hrun⟩ := bind_eq_ok hrun
  cases hget
  simp only [hdraft] at hrun
  obtain ⟨_, w₂, hset, hrun⟩ := bind_eq_ok hrun
  cases hset
  cases hfinal : ShortKeyDraft.finalize w.numRows d with
  | error e d' => simp only [hfinal] at hrun; cases hrun
  | ok slices d' =>
      simp only [hfinal] at hrun
      obtain ⟨_, w₃, hheader, hrun⟩ := bind_eq_ok hrun
      obtain ⟨_, w₄, hbytes, hrun⟩ := bind_eq_ok hrun
      obtain ⟨_, w₅, hoffsets, hrun⟩ := bind_eq_ok hrun
      cases hheader
      cases hbytes
      cases hoffsets
      cases hnew : Pointer.new ((w.output.map OutputFile.size).getD 0)
          (slices.header.length + slices.keys.length + slices.offsets.length) with
      | error e => rw [hnew] at hrun; cases hrun
      | ok q =>
          rw [hnew] at hrun
          cases hrun
          exact ⟨slices, d', rfl, hnew, rfl⟩

theorem writeShortKeys_eq_ok {keys : List Bytes} {d : ShortKeyDraft} {p : Pointer}
    (hrun : writeShortKeys w = .ok p w') (houtput : w.output = some (.memory file))
    (hdraft : w.shortKeys = some d) (hkeys : plan.HoldsKeys keys d) :
    let stored := ShortKeyIndex.stored plan.id (UInt32.ofNat plan.options.numRowsPerBlock)
      w.numRows keys
    w.numRows < 2 ^ 32 ∧ Pointer.new file.size stored.length = .ok p ∧
      w' = { w with shortKeys := none, output := some (.memory (file ++ stored)) } := by
  obtain ⟨slices, d', hfinal, hpointer, rfl⟩ := writeShortKeys_slices hrun hdraft
  obtain ⟨hrows, hstored⟩ := finalize_keys hkeys hfinal
  have hlen := congrArg List.length hstored
  simp only [List.length_append] at hlen
  simp only [houtput, hlen, Option.map_some, Option.getD_some, OutputFile.size] at hpointer
  refine ⟨hrows, hpointer, ?_⟩
  simp only [houtput, Option.map_some, OutputFile.append, appendList_append, hstored]

theorem writeFooter_eq_ok {p : Pointer} (hrun : writeFooter p w = .ok () w')
    (houtput : w.output = some (.memory file)) :
    let footer : Footer :=
      { numRows := UInt64.ofNat w.numRows, columns := w.columns.map (·.entry), shortKeys := some p }
    footer.encode.length < 2 ^ 32 ∧ w' = { w with
      output := some (.memory (file ++ (footer.encode ++ Footer.trailer footer.encode))) } := by
  intro footer
  obtain ⟨_, w₁, hget, hrun⟩ := bind_eq_ok hrun
  cases hget
  dsimp only at hrun
  obtain ⟨hlarge, hrun⟩ := check_eq_ok hrun
  obtain ⟨_, w₂, hbytes, hrun⟩ := bind_eq_ok hrun
  cases hbytes
  cases hrun
  refine ⟨Nat.lt_of_not_le hlarge, ?_⟩
  simp only [houtput, Option.map_some, OutputFile.append, appendList_append]
  rfl

variable [Lz4.Compressor]

/-! ## The sections of all columns -/

theorem finishColumn_eq_ok {w : ColumnWriter} {out : OutputFile} {s : ColumnWriter × OutputFile}
    (h : finishColumn (w, out) = .ok () s) :
    ∃ w₁, ColumnWriter.finish w = .ok () w₁ ∧ ColumnWriter.writeData (w₁, out) = .ok () s := by
  simp only [finishColumn] at h
  cases hfinish : ColumnWriter.finish w with
  | error e w₁ => simp only [hfinish] at h; cases h
  | ok _ w₁ =>
      simp only [hfinish] at h
      exact ⟨w₁, rfl, h⟩

theorem appends_finishColumn : Appends finishColumn := by
  intro w file s hrun
  obtain ⟨w₁, -, hwrite⟩ := finishColumn_eq_ok hrun
  exact ColumnWriter.appends_writeData _ _ _ hwrite

theorem leads_finishColumn (t : ColumnTask) :
    Leads (fun w _ => t.Open w) finishColumn (t.plan.Flushed t.cells) := by
  intro w file w' file' h hrun hsize
  obtain ⟨w₁, hfinish, hwrite⟩ := finishColumn_eq_ok hrun
  exact t.plan.leads_writeData t.cells _ _ _ _ (h.1.finish hfinish).1 hwrite hsize

/-- All columns lie in the file when their sections are written. -/
theorem writeColumns_eq_ok {ts : List ColumnTask} {out : OutputFile}
    (hts : List.Forall₂ ColumnTask.Open ts ws)
    (h : writeColumns (ws, .memory file) = .ok () (ws', out)) :
    ∃ more : Bytes, out = .memory (file ++ more) ∧ ((file ++ more).size < 2 ^ 64 →
      List.Forall₂ (fun t w => t.plan.Written t.cells (file ++ more) w.entry) ts ws') := by
  obtain ⟨_, ⟨ws₁, out₁⟩, hpages, h⟩ := bind_eq_ok h
  obtain ⟨_, ⟨ws₂, out₂⟩, hindexes, hmaps⟩ := bind_eq_ok h
  obtain ⟨m₁, rfl⟩ := eachOf_appends appends_finishColumn hpages
  obtain ⟨m₂, rfl⟩ := eachOf_appends ColumnWriter.appends_writeOrdinalIndex hindexes
  obtain ⟨m₃, rfl⟩ := eachOf_appends ColumnWriter.appends_writeZoneMaps hmaps
  refine ⟨m₁ ++ (m₂ ++ m₃), by simp only [appendList_append, List.append_assoc], fun hsize => ?_⟩
  simp only [← appendList_append] at hsize ⊢
  simp only [Lz4.size_appendList] at hsize
  have hflushed := eachOf_leads appends_finishColumn leads_finishColumn
    (fun _ _ _ _ h => h) (fun _ _ _ more h => h.append more) hts hpages
    (by simp only [Lz4.size_appendList]; omega)
  have hindexed := eachOf_leads ColumnWriter.appends_writeOrdinalIndex
    (fun t => t.plan.leads_writeOrdinalIndex t.cells)
    (fun _ _ _ more h => h.append more) (fun _ _ _ more h => h.append more) hflushed hindexes
    (by simp only [Lz4.size_appendList]; omega)
  exact eachOf_leads ColumnWriter.appends_writeZoneMaps
    (fun t => t.plan.leads_writeZoneMaps t.cells)
    (fun _ _ _ more h => h.append more) (fun _ _ _ more h => h.append more) hindexed hmaps
    (by simp only [Lz4.size_appendList]; omega)

/-! ## All parts -/

/-- To finish a segment is to write the sections of all columns, the short-key index and the
footer. -/
theorem finalize_steps {out : OutputFile} {size : ℕ} (hrun : finalize w = .ok size w')
    (houtput : w.output = some out) :
    ∃ ws out' p w₁ w₂,
      writeColumns (w.columns, out) = .ok () (ws, out') ∧
      writeShortKeys { w with stage := .finalized, columns := ws, output := some out' } =
        .ok p w₁ ∧
      writeFooter p w₁ = .ok () w₂ ∧
      w' = { w₂ with output := w₂.output.map OutputFile.sync } ∧
      size = (w'.output.map OutputFile.size).getD 0 := by
  obtain ⟨_, w₁, hrequire, hrun⟩ := bind_eq_ok hrun
  obtain ⟨-, rfl⟩ := require_eq_ok hrequire
  obtain ⟨_, w₂, hstage, hrun⟩ := bind_eq_ok hrun
  cases hstage
  obtain ⟨_, w₃, hget, hrun⟩ := bind_eq_ok hrun
  cases hget
  simp only [houtput] at hrun
  cases hcolumns : writeColumns (w.columns, out) with
  | error e s =>
      simp only [hcolumns] at hrun
      obtain ⟨_, w₄, hset, hthrow⟩ := bind_eq_ok hrun
      cases hthrow
  | ok _ s =>
      obtain ⟨ws, out'⟩ := s
      simp only [hcolumns] at hrun
      obtain ⟨_, w₄, hset, hrun⟩ := bind_eq_ok hrun
      cases hset
      obtain ⟨p, w₅, hkeys, hrun⟩ := bind_eq_ok hrun
      obtain ⟨_, w₆, hfooter, hrun⟩ := bind_eq_ok hrun
      obtain ⟨_, w₇, hsync, hrun⟩ := bind_eq_ok hrun
      cases hsync
      cases hrun
      exact ⟨ws, out', p, w₅, w₆, rfl, hkeys, hfooter, rfl, rfl⟩

end SegmentWriter

/-! ## The file as a whole -/

namespace SegmentPlan

variable [Lz4.Compressor] (plan : SegmentPlan)

/-- The stored short-key index of the rows. -/
def keySection (rows : List Row) : Bytes :=
  ShortKeyIndex.stored plan.id (UInt32.ofNat plan.options.numRowsPerBlock) rows.length
    (plan.blockKeys rows)

/-- What comes before the footer holds the parts of a segment with these rows, and the footer says
where they lie. -/
structure Lies (rows : List Row) (body : Array UInt8) (footer : Footer) : Prop where
  rows_lt : rows.length < 2 ^ 32
  version : footer.version = Footer.supportedVersion
  numRows : footer.numRows = UInt64.ofNat rows.length
  columns : List.Forall₂ (fun t m => t.plan.Written t.cells body m) (plan.tasks rows) footer.columns
  accepted : ∀ t ∈ plan.tasks rows, t.Accepted
  widths : ∀ row ∈ rows, row.length = plan.schema.columns.length
  shortKeys : ∃ p, footer.shortKeys = some p ∧ Stored body p (plan.keySection rows)
  footer_lt : footer.encode.length < 2 ^ 32

variable {plan} {initial : Array UInt8} {rows : List Row} {w w' : SegmentWriter}

/-- The footer that is written at last. -/
def footer (rows : List Row) (ws : List ColumnWriter) (p : Pointer) : Footer where
  numRows := UInt64.ofNat rows.length
  columns := ws.map (·.entry)
  shortKeys := some p

/-- The file that is finished, part by part. -/
theorem Holds.finalize_eq_ok (h : plan.Holds initial rows w) {size : ℕ}
    (hrun : SegmentWriter.finalize w = .ok size w') :
    ∃ (more : Bytes) (ws : List ColumnWriter) (p : Pointer),
      SegmentWriter.writeColumns (w.columns, .memory initial) =
          .ok () (ws, .memory (initial ++ more)) ∧
        rows.length < 2 ^ 32 ∧
        Pointer.new (initial ++ more).size (plan.keySection rows).length = .ok p ∧
        (footer rows ws p).encode.length < 2 ^ 32 ∧
        let file := initial ++ (more ++ plan.keySection rows) ++
          ((footer rows ws p).encode ++ Footer.trailer (footer rows ws p).encode)
        w'.output = some (.memory file) ∧ size = file.size := by
  obtain ⟨ws, out, p, w₁, w₂, hcolumns, hkeys, hfooter, rfl, rfl⟩ :=
    SegmentWriter.finalize_steps hrun h.output
  obtain ⟨more, rfl, -⟩ := SegmentWriter.writeColumns_eq_ok h.columns hcolumns
  obtain ⟨d, hd, hholds⟩ := h.shortKeys
  obtain ⟨hrows, hpointer, rfl⟩ := SegmentWriter.writeShortKeys_eq_ok hkeys rfl hd hholds
  obtain ⟨hlen, rfl⟩ := SegmentWriter.writeFooter_eq_ok hfooter rfl
  simp only [h.numRows] at hrows hpointer hlen ⊢
  refine ⟨more, ws, p, hcolumns, hrows, hpointer, hlen, ?_, ?_⟩
  · rw [← appendList_append initial]
    rfl
  · rw [← appendList_append initial]
    rfl

/-- What was written so lies in the file. -/
theorem Holds.lies (h : plan.Holds initial rows w) {more : Bytes} {ws : List ColumnWriter}
    {p : Pointer}
    (hcolumns : SegmentWriter.writeColumns (w.columns, .memory initial) =
      .ok () (ws, .memory (initial ++ more)))
    (hrows : rows.length < 2 ^ 32)
    (hpointer : Pointer.new (initial ++ more).size (plan.keySection rows).length = .ok p)
    (hlen : (footer rows ws p).encode.length < 2 ^ 32)
    (hsize : (initial ++ more).size < 2 ^ 64) :
    plan.Lies rows (initial ++ (more ++ plan.keySection rows)) (footer rows ws p) := by
  obtain ⟨more', hmore, hwritten⟩ := SegmentWriter.writeColumns_eq_ok h.columns hcolumns
  rw [← OutputFile.memory.inj hmore] at hwritten
  rw [← appendList_append initial]
  refine ⟨hrows, rfl, rfl, ?_, h.accepted, h.widths,
    ⟨p, rfl, stored_appended hpointer hsize⟩, hlen⟩
  rw [footer, List.forall₂_map_right_iff]
  exact (hwritten hsize).imp fun _ _ ht => ht.append _

/-- A segment that is finished lies behind what the file held before. -/
theorem Holds.finalize (h : plan.Holds initial rows w) {size : ℕ}
    (hrun : SegmentWriter.finalize w = .ok size w') :
    ∃ (more : Bytes) (footer : Footer),
      let file := initial ++ more ++ (footer.encode ++ Footer.trailer footer.encode)
      w'.output = some (.memory file) ∧ size = file.size ∧
        (file.size < 2 ^ 64 → plan.Lies rows (initial ++ more) footer) := by
  obtain ⟨more, ws, p, hcolumns, hrows, hpointer, hlen, houtput, hsize⟩ := h.finalize_eq_ok hrun
  refine ⟨_, _, houtput, hsize, fun hlt => h.lies hcolumns hrows hpointer hlen ?_⟩
  simp only [Lz4.size_appendList, List.length_append] at hlt ⊢
  omega

end SegmentPlan

namespace SegmentWriter

variable [Lz4.Compressor] {id : UInt32} {schema : Schema} {options : SegmentOptions}
  {initial file : Array UInt8} {rows : List Row}

/-- A segment of these rows is written behind what the file held at first. -/
inductive Writes (id : UInt32) (schema : Schema) (options : SegmentOptions)
    (initial : Array UInt8) (rows : List Row) (file : Array UInt8) : Prop where
  | run {w₀ w₁ w₂ : SegmentWriter} {size : ℕ}
      (init : init (.ok (.memory initial)) { id, schema, options } = .ok () w₀)
      (append : appendAll rows w₀ = .ok () w₁)
      (finalize : finalize w₁ = .ok size w₂)
      (output : w₂.output = some (.memory file))

/-- The file then, if all goes well. -/
def written? (id : UInt32) (schema : Schema) (options : SegmentOptions) (initial : Array UInt8)
    (rows : List Row) : Option (Array UInt8) := do
  let s₀ ← outcome? (init (.ok (.memory initial)) { id, schema, options })
  let s₁ ← outcome? (appendAll rows s₀.2)
  let s₂ ← outcome? (finalize s₁.2)
  s₂.2.output.bind OutputFile.bytes?

theorem writes_iff : Writes id schema options initial rows file ↔
    written? id schema options initial rows = some file := by
  constructor
  · rintro ⟨hinit, happend, hfinalize, houtput⟩
    simp [written?, hinit, happend, hfinalize, houtput, outcome?, OutputFile.bytes?]
  · intro h
    obtain ⟨⟨_, w₀⟩, hinit, h⟩ := Option.bind_eq_some_iff.mp h
    obtain ⟨⟨_, w₁⟩, happend, h⟩ := Option.bind_eq_some_iff.mp h
    obtain ⟨⟨size, w₂⟩, hfinalize, h⟩ := Option.bind_eq_some_iff.mp h
    obtain ⟨out, houtput, hout⟩ := Option.bind_eq_some_iff.mp h
    cases OutputFile.eq_memory_of_bytes? hout
    exact .run (eq_ok_of_outcome? hinit) (eq_ok_of_outcome? happend)
      (eq_ok_of_outcome? hfinalize) houtput

/-- A run that is carried out shows that there is one. -/
theorem exists_writes {P : Array UInt8 → Prop} [DecidablePred P]
    (h : (written? id schema options initial rows).any fun file => P file) :
    ∃ file, Writes id schema options initial rows file ∧ P file := by
  obtain ⟨file, hwritten, hfile⟩ := (Option.any_eq_true _ _).mp h
  exact ⟨file, writes_iff.mpr hwritten, of_decide_eq_true hfile⟩

end SegmentWriter

end Columnar
