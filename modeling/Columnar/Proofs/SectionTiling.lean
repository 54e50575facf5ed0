import Columnar.Lz4.Matcher
import Columnar.Proofs.RejectedCalls
import Columnar.Proofs.SegmentReading

/-! # The sections of a segment tile its file

Between what the file held before and the footer there is nothing but the sections, one behind the
other: the pages of all columns, their ordinal indexes, their zone maps and the short-key index. -/

namespace Columnar

/-- The parts lie one behind the other, from `start` on up to `stop`. -/
def Tiles : (start : ℕ) → List Pointer → (stop : ℕ) → Prop
  | start, [], stop => start = stop
  | start, p :: ps, stop => p.offset.toNat = start ∧ Tiles p.stop ps stop

/-- All parts that a footer leads to, in the order in which they are written. -/
def Footer.sections (f : Footer) : List Pointer :=
  f.columns.flatMap (·.pages.toList) ++ f.columns.flatMap (·.ordinalIndex.toList)
    ++ f.columns.flatMap (·.zoneMaps.toList) ++ f.shortKeys.toList

theorem Tiles.append {a b c : ℕ} {ps qs : List Pointer} (h : Tiles a ps b) (h' : Tiles b qs c) :
    Tiles a (ps ++ qs) c := by
  induction ps generalizing a with
  | nil =>
      obtain rfl : a = b := h
      exact h'
  | cons p ps ih => exact ⟨h.1, ih h.2⟩

/-- A part that is appended to a file begins where the file ended. -/
theorem tiles_of_new {file : Array UInt8} {bs : Bytes} {p : Pointer}
    (h : Pointer.new file.size bs.length = .ok p) (hsize : (file ++ bs).size < 2 ^ 64) :
    Tiles file.size [p] (file ++ bs).size := by
  obtain ⟨hlen, rfl⟩ := Pointer.new_eq_ok h
  rw [Lz4.size_appendList] at hsize ⊢
  have hoffset : (UInt64.ofNat file.size).toNat = file.size :=
    UInt64.toNat_ofNat_of_lt (lt_of_le_of_lt (Nat.le_add_right _ _) hsize)
  have hlength : (UInt32.ofNat bs.length).toNat = bs.length := UInt32.toNat_ofNat_of_lt hlen
  refine ⟨hoffset, ?_⟩
  change (UInt64.ofNat file.size).toNat + (UInt32.ofNat bs.length).toNat = _
  rw [hoffset, hlength]

/-! ## The sections of a column -/

namespace ColumnWriter

variable {w w' : ColumnWriter} {file file' : Array UInt8} {s : ColumnWriter × OutputFile}

theorem writePages_tiles {pages : List ClosedPage}
    (h : writePages pages (w, .memory file) = .ok () (w', .memory file'))
    (hsize : file'.size < 2 ^ 64) :
    ∃ ps, w'.entry.pages.toList = w.entry.pages.toList ++ ps ∧ Tiles file.size ps file'.size := by
  induction pages generalizing w file with
  | nil =>
      cases h
      exact ⟨[], by simp, rfl⟩
  | cons page pages ih =>
      obtain ⟨p, hpointer, h⟩ := writePages_cons_eq_ok h
      obtain ⟨ps, hps, htiles⟩ := ih h
      obtain ⟨entries, more, hfile, -⟩ := writePages_eq_ok h
      obtain rfl : file' = file ++ page.bytes ++ more := by simpa using hfile
      exact ⟨p :: ps, by simp [hps],
        (tiles_of_new hpointer (size_lt_of_append hsize)).append htiles⟩

/-- A step puts parts in the footer that tile what it appends to the file. -/
def Places (P : ColumnWriter → Prop) (step : Output Unit) (parts : ColumnMeta → List Pointer) :
    Prop :=
  ∀ w file w' file', P w → step (w, .memory file) = .ok () (w', .memory file') →
    file'.size < 2 ^ 64 → Tiles file.size (parts w'.entry) file'.size

/-- A step leaves parts in the footer as they are. -/
def Spares (step : Output Unit) (parts : ColumnMeta → List Pointer) : Prop :=
  ∀ w file s, step (w, .memory file) = .ok () s → parts s.1.entry = parts w.entry

theorem finish_entry [Lz4.Compressor] (h : finish w = .ok () w') : w'.entry = w.entry := by
  obtain ⟨_, w₁, hclose, hset⟩ := bind_eq_ok h
  cases hset
  rw [closePage] at hclose
  split at hclose
  next => cases hclose; rfl
  next =>
    split at hclose
    next => cases hclose; rfl
    next => cases hclose

theorem places_finishColumn [Lz4.Compressor] :
    Places (fun w => w.entry.pages = #[]) SegmentWriter.finishColumn (·.pages.toList) := by
  intro w file w' file' hw hrun hsize
  obtain ⟨w₁, hfinish, hrun⟩ := SegmentWriter.finishColumn_eq_ok hrun
  obtain ⟨w₂, out₂, -, hwrite, hs⟩ := writeData_eq_ok hrun
  cases hs
  obtain ⟨ps, hps, htiles⟩ := writePages_tiles hwrite hsize
  dsimp only at hps
  rw [finish_entry hfinish, hw] at hps
  change Tiles file.size w₂.entry.pages.toList file'.size
  rwa [hps]

theorem spares_finishColumn [Lz4.Compressor] :
    Spares SegmentWriter.finishColumn (·.zoneMaps.toList) := by
  intro w file s hrun
  obtain ⟨w₁, hfinish, hrun⟩ := SegmentWriter.finishColumn_eq_ok hrun
  obtain ⟨w₂, out₂, -, hwrite, rfl⟩ := writeData_eq_ok hrun
  obtain ⟨entries, more, -, hw, -⟩ := writePages_eq_ok hwrite
  rw [← finish_entry hfinish]
  exact congrArg (·.entry.zoneMaps.toList) hw

theorem places_writeOrdinalIndex :
    Places (fun _ => True) writeOrdinalIndex (·.ordinalIndex.toList) := by
  intro w file w' file' _ hrun hsize
  obtain ⟨p, -, hpointer, hs⟩ := writeOrdinalIndex_eq_ok hrun
  cases hs
  exact tiles_of_new hpointer hsize

theorem spares_writeOrdinalIndex {parts : ColumnMeta → List Pointer}
    (h : ∀ m p, parts { m with ordinalIndex := some p } = parts m) :
    Spares writeOrdinalIndex parts := by
  intro w file s hrun
  obtain ⟨p, -, -, rfl⟩ := writeOrdinalIndex_eq_ok hrun
  exact h _ _

theorem places_writeZoneMaps :
    Places (fun w => w.entry.zoneMaps = none) writeZoneMaps (·.zoneMaps.toList) := by
  intro w file w' file' hw hrun hsize
  obtain ⟨-, ⟨-, hs⟩ | ⟨draft, p, -, hpointer, hs⟩⟩ := writeZoneMaps_eq_ok hrun
  · cases hs
    simp only [hw]
    rfl
  · cases hs
    exact tiles_of_new hpointer hsize

theorem spares_writeZoneMaps {parts : ColumnMeta → List Pointer}
    (h : ∀ m p z, parts { m with zoneMaps := some p, segmentZoneMap := some z } = parts m) :
    Spares writeZoneMaps parts := by
  intro w file s hrun
  obtain ⟨-, ⟨-, rfl⟩ | ⟨draft, p, -, -, rfl⟩⟩ := writeZoneMaps_eq_ok hrun
  · rfl
  · exact h _ _ _

end ColumnWriter

/-! ## The sections of all columns -/

namespace SegmentWriter

open ColumnWriter (Appends Places Spares)

variable {step : ColumnWriter.Output Unit} {parts : ColumnMeta → List Pointer}
  {ws ws' : List ColumnWriter} {file file' : Array UInt8}

theorem eachOf_tiles {P : ColumnWriter → Prop} (happends : Appends step)
    (hplaces : Places P step parts) (hP : ∀ w ∈ ws, P w)
    (h : eachOf step ws (.memory file) = .ok () (ws', .memory file'))
    (hsize : file'.size < 2 ^ 64) :
    Tiles file.size (ws'.flatMap fun w => parts w.entry) file'.size := by
  induction ws generalizing ws' file with
  | nil =>
      cases h
      rfl
  | cons w ws ih =>
      obtain ⟨w₁, ws₁, more, rfl, hw, hrest⟩ := eachOf_cons_eq_ok happends h
      obtain ⟨more', hfile⟩ := eachOf_appends happends hrest
      have hlt : (file ++ more).size < 2 ^ 64 := by
        cases hfile
        simp only [Lz4.size_appendList] at hsize ⊢
        omega
      rw [List.flatMap_cons]
      exact (hplaces w file w₁ _ (hP w (by simp)) hw hlt).append
        (ih (fun v hv => hP v (by simp [hv])) hrest)

theorem eachOf_spares (parts : ColumnMeta → List Pointer) {out : OutputFile}
    (happends : Appends step) (hspares : Spares step parts)
    (h : eachOf step ws (.memory file) = .ok () (ws', out)) :
    (ws'.flatMap fun w => parts w.entry) = ws.flatMap fun w => parts w.entry := by
  induction ws generalizing ws' file with
  | nil =>
      cases h
      rfl
  | cons w ws ih =>
      obtain ⟨w₁, ws₁, more, rfl, hw, hrest⟩ := eachOf_cons_eq_ok happends h
      rw [List.flatMap_cons, List.flatMap_cons, hspares w file _ hw, ih hrest]

/-- Columns that have written nothing tile what they append to the file. -/
theorem writeColumns_tiles [Lz4.Compressor] (hpages : ∀ w ∈ ws, w.entry.pages = #[])
    (hzoneMaps : ∀ w ∈ ws, w.entry.zoneMaps = none)
    (h : writeColumns (ws, .memory file) = .ok () (ws', .memory file'))
    (hsize : file'.size < 2 ^ 64) :
    Tiles file.size ((ws'.flatMap fun w => w.entry.pages.toList)
      ++ (ws'.flatMap fun w => w.entry.ordinalIndex.toList)
      ++ ws'.flatMap fun w => w.entry.zoneMaps.toList) file'.size := by
  obtain ⟨_, ⟨ws₁, out₁⟩, hfinish, h⟩ := bind_eq_ok h
  obtain ⟨_, ⟨ws₂, out₂⟩, hindexes, hmaps⟩ := bind_eq_ok h
  obtain ⟨m₁, rfl⟩ := eachOf_appends appends_finishColumn hfinish
  obtain ⟨m₂, rfl⟩ := eachOf_appends ColumnWriter.appends_writeOrdinalIndex hindexes
  obtain ⟨m₃, hfile⟩ := eachOf_appends ColumnWriter.appends_writeZoneMaps hmaps
  cases hfile
  simp only [Lz4.size_appendList] at hsize
  have hpagesTile := eachOf_tiles appends_finishColumn ColumnWriter.places_finishColumn hpages
    hfinish (by simp only [Lz4.size_appendList]; omega)
  have hindexesTile := eachOf_tiles ColumnWriter.appends_writeOrdinalIndex
    ColumnWriter.places_writeOrdinalIndex (fun _ _ => trivial) hindexes
    (by simp only [Lz4.size_appendList]; omega)
  -- nothing has zone maps before they are written, and nothing touches the other parts later
  have hnone : (ws₂.flatMap fun w => w.entry.zoneMaps.toList) = [] := by
    rw [eachOf_spares (·.zoneMaps.toList) ColumnWriter.appends_writeOrdinalIndex
        (ColumnWriter.spares_writeOrdinalIndex fun _ _ => rfl) hindexes,
      eachOf_spares (·.zoneMaps.toList) appends_finishColumn ColumnWriter.spares_finishColumn
        hfinish]
    simpa using hzoneMaps
  have hmapsTile := eachOf_tiles ColumnWriter.appends_writeZoneMaps
    ColumnWriter.places_writeZoneMaps (by simpa using hnone) hmaps
    (by simp only [Lz4.size_appendList]; omega)
  have hpages₂ := eachOf_spares (·.pages.toList) ColumnWriter.appends_writeOrdinalIndex
    (ColumnWriter.spares_writeOrdinalIndex fun _ _ => rfl) hindexes
  have hpages₃ := eachOf_spares (·.pages.toList) ColumnWriter.appends_writeZoneMaps
    (ColumnWriter.spares_writeZoneMaps fun _ _ _ => rfl) hmaps
  have hindexes₃ := eachOf_spares (·.ordinalIndex.toList) ColumnWriter.appends_writeZoneMaps
    (ColumnWriter.spares_writeZoneMaps fun _ _ _ => rfl) hmaps
  rw [hpages₃, hpages₂, hindexes₃]
  exact (hpagesTile.append hindexesTile).append hmapsTile

end SegmentWriter

/-! ## The footer -/

namespace ColumnPlan

variable [Lz4.Compressor] {plan : ColumnPlan} {cells : List Cell} {file : Array UInt8}
  {m : ColumnMeta}

theorem Written.isSome_ordinalIndex (h : plan.Written cells file m) :
    m.ordinalIndex.isSome = true := by
  obtain ⟨_, p, -, -, hp, -⟩ := h.index
  rw [hp]
  rfl

theorem Written.isSome_zoneMaps (h : plan.Written cells file m) :
    m.zoneMaps.isSome = plan.options.needZoneMap := by
  cases hneed : plan.options.needZoneMap with
  | false =>
      rw [(h.noZoneMaps (by rw [ColumnPlan.zoneMaps, hneed, if_neg Bool.false_ne_true])).1]
      rfl
  | true =>
      obtain ⟨-, p, hp, -⟩ := h.zoneMaps _ (by rw [ColumnPlan.zoneMaps, if_pos hneed])
      rw [hp]
      rfl

end ColumnPlan

namespace SegmentPlan

variable [Lz4.Compressor] {plan : SegmentPlan} {initial body : Array UInt8} {rows : List Row}
  {w w' : SegmentWriter} {footer : Footer}

/-- A column that takes cells has written nothing. -/
theorem Holds.unwritten (h : plan.Holds initial rows w) :
    ∀ c ∈ w.columns, c.entry.pages = #[] ∧ c.entry.zoneMaps = none := by
  intro c hc
  obtain ⟨k, hk⟩ := List.mem_iff_getElem?.mp hc
  obtain ⟨t, -, hopen⟩ := forall₂_getElem? h.columns hk
  rw [hopen.1.entry]
  exact ⟨rfl, rfl⟩

theorem parts_of_written {position : ℕ} {cs : List ColumnSchema} {ms : List ColumnMeta}
    (h : List.Forall₂ (fun t m => t.plan.Written t.cells body m)
      (plan.tasksFrom position cs rows) ms) :
    List.Forall₂ (fun c m => m.ordinalIndex.isSome = true ∧ m.zoneMaps.isSome = c.isKey) cs ms := by
  induction cs generalizing position rows ms with
  | nil =>
      cases h
      exact .nil
  | cons c cs ih =>
      obtain ⟨m, ms, hm, hms, rfl⟩ := List.forall₂_cons_left_iff.mp h
      exact .cons ⟨hm.isSome_ordinalIndex, hm.isSome_zoneMaps⟩ (ih hms)

/-- When a segment is finished, its sections tile what is written before the footer. -/
theorem Holds.finalize_tiles (h : plan.Holds initial rows w) {size : ℕ}
    (hrun : SegmentWriter.finalize w = .ok size w') (hsize : size < 2 ^ 64) :
    ∃ (file body : Array UInt8) (footer : Footer), w'.output = some (.memory file) ∧
      size = file.size ∧ Segment.Sealed file body footer.encode ∧ plan.Lies rows body footer ∧
      Tiles initial.size footer.sections body.size := by
  obtain ⟨more, ws, p, hcolumns, hrows, hpointer, hlen, houtput, rfl⟩ := h.finalize_eq_ok hrun
  simp only [Lz4.size_appendList, List.length_append] at hsize
  have hbody : (initial ++ more ++ plan.keySection rows).size < 2 ^ 64 := by
    simp only [Lz4.size_appendList]
    omega
  have hmore : (initial ++ more).size < 2 ^ 64 := by
    simp only [Lz4.size_appendList]
    omega
  refine ⟨_, _, _, houtput, rfl, ⟨rfl, hlen⟩, h.lies hcolumns hrows hpointer hlen hmore, ?_⟩
  have hsections := SegmentWriter.writeColumns_tiles (fun c hc => (h.unwritten c hc).1)
    (fun c hc => (h.unwritten c hc).2) hcolumns hmore
  have htiles := hsections.append (tiles_of_new hpointer hbody)
  rw [appendList_append] at htiles
  simpa only [Footer.sections, SegmentPlan.footer, List.flatMap_map, Option.toList_some]
    using htiles

end SegmentPlan

/-- A writer that can be finished holds the rows that it took. -/
theorem SegmentWriter.Reached.holds_of_finalize [Lz4.Compressor] {id : UInt32} {schema : Schema}
    {options : SegmentOptions} {initial : Array UInt8} {done : Bool} {rows : List Row}
    {w w' : SegmentWriter} (h : Reached id schema options initial done rows w) {size : ℕ}
    (hrun : SegmentWriter.finalize w = .ok size w') :
    ∃ plan : SegmentPlan, plan.id = id ∧ plan.schema = schema ∧ plan.options = options ∧
      plan.Holds initial rows w := by
  have hopen : w.stage.isOpen = true := by
    by_contra hclosed
    rw [finalize_of_closed (Bool.eq_false_iff.mpr hclosed)] at hrun
    cases hrun
  cases h with
  | created => cases hopen
  | taking hinit hrows => exact holds hinit hrows
  | spoilt hspoilt => exact absurd hrun hspoilt.finalize_ne_ok
  | failed hstage => rw [hstage] at hopen; cases hopen
  | finished hstage => rw [hstage] at hopen; cases hopen

/-- Whatever was asked of a writer before it was finished, the sections to which the footer leads
tile its file between what was there before and the footer. All columns have an ordinal index, and
the key columns have zone maps. -/
theorem sections_tile [Lz4.Compressor] {id : UInt32} {schema : Schema} {options : SegmentOptions}
    {initial before : Array UInt8} {calls : List SegmentWriter.Call} {w w' : SegmentWriter}
    {size : ℕ}
    (hcalls : (answers (SegmentWriter.answer initial) calls { id, schema, options }).2 = w)
    (hbefore : w.file initial = .memory before)
    (hfinalize : SegmentWriter.finalize w = .ok size w') (hsize : size < 2 ^ 64) :
    ∃ file segment footerSize checksum, w'.output = some (.memory file) ∧ size = file.size ∧
      Segment.open (.memory file) = .ok segment ∧
      Segment.readTrailer (.memory file) = .ok (footerSize, checksum) ∧
      12 + footerSize ≤ file.size ∧
      Tiles before.size segment.footer.sections (file.size - 12 - footerSize) ∧
      List.Forall₂ (fun c m => m.ordinalIndex.isSome = true ∧ m.zoneMaps.isSome = c.isKey)
        schema.columns segment.footer.columns ∧
      segment.footer.shortKeys.isSome = true := by
  have hreached := SegmentWriter.reached_answers id schema options initial calls
  dsimp only at hreached
  rw [hcalls] at hreached
  obtain ⟨plan, rfl, rfl, rfl, hholds⟩ := hreached.holds_of_finalize hfinalize
  obtain ⟨file, body, footer, houtput, rfl, hsealed, hlies, htiles⟩ :=
    hholds.finalize_tiles hfinalize hsize
  obtain rfl : initial = before := by
    rw [SegmentWriter.file, hholds.output] at hbefore
    cases hbefore
    rfl
  have hfile : file.size = body.size + (footer.encode.length + 12) := by
    rw [hsealed.file_eq, Lz4.size_appendList, List.length_append, Footer.length_trailer]
    rfl
  refine ⟨file, _, _, _, houtput, rfl, hlies.open_eq_ok hsealed, hsealed.readTrailer_eq_ok,
    by omega, ?_, SegmentPlan.parts_of_written hlies.columns, ?_⟩
  · rwa [hfile, show body.size + (footer.encode.length + 12) - 12 - footer.encode.length = body.size
      by omega]
  · obtain ⟨p, hp, -⟩ := hlies.shortKeys
    dsimp only
    rw [hp]
    rfl

attribute [local instance] Lz4.matcher

/-- Two columns, of which one is a key, with three pages each. One row is refused. -/
theorem sections_tile_two_columns :
    let schema : Schema := {
      columns := [{ uniqueId := 7, name := "id", type := .int, isKey := true, isNullable := false },
        { uniqueId := 9, name := "tag", type := .varchar, length := 2 }]
      shortKeys := 1
      nonempty := by decide
      distinct := by decide
      keysFirst := by decide
      shortKeys_le := by decide }
    let options : SegmentOptions := { numRowsPerBlock := 2, maxRowsPerPage := 1 }
    let calls : List SegmentWriter.Call := [.init, .append [some (.int32 5), some (.bytes [97])],
      .append [none, none], .append [some (.int32 7), none], .append [some (.int32 9), none]]
    ∃ w w' size,
      (answers (SegmentWriter.answer #[1, 2, 3]) calls { id := 4, schema, options }).2 = w ∧
      w.file #[1, 2, 3] = .memory #[1, 2, 3] ∧ SegmentWriter.finalize w = .ok size w' ∧
      size < 2 ^ 64 ∧ ∃ file segment footerSize, w'.output = some (.memory file) ∧
        Segment.open (.memory file) = .ok segment ∧ segment.footer.columns.length = 2 ∧
        Tiles 3 segment.footer.sections (file.size - 12 - footerSize) := by
  intro schema options calls
  have hrun : (outcome? (SegmentWriter.finalize
      (answers (SegmentWriter.answer #[1, 2, 3]) calls { id := 4, schema, options }).2)).any
        (·.1 < 2 ^ 64) = true := by
    decide +kernel
  have hfile : ((answers (SegmentWriter.answer #[1, 2, 3]) calls
      { id := 4, schema, options }).2.file #[1, 2, 3]).bytes? = some #[1, 2, 3] := by
    decide +kernel
  obtain ⟨⟨size, w'⟩, hfinalize, hsize⟩ := (Option.any_eq_true _ _).mp hrun
  have hsize := of_decide_eq_true hsize
  have hfinalize := eq_ok_of_outcome? hfinalize
  have hbefore := OutputFile.eq_memory_of_bytes? hfile
  obtain ⟨file, segment, footerSize, _, houtput, -, hopen, -, -, htiles, hcolumns, -⟩ :=
    sections_tile rfl hbefore hfinalize hsize
  exact ⟨_, w', size, rfl, hbefore, hfinalize, hsize, file, segment, footerSize, houtput, hopen,
    hcolumns.length_eq.symm, htiles⟩

end Columnar
