import Columnar.Proofs.Machine.Pages

/-! # Columns as a machine opens them

Sections are cut out of a file whose length is a word. The rows of a page are a difference that the
order of the ordinal index keeps from falling below zero. -/

namespace Columnar.Machine

/-! ## Zone maps -/

def zoneMap (f : Field) : Run Bytes ZoneMap := do
  let flags ← byte "zone map flags"
  if 3 < flags then throw (.corruption (.zoneMapFlags flags))
  let hasNull := flags.toNat % 2 = 1
  if 2 ≤ flags then
    let least ← value f
    let greatest ← value f
    if least.cmp greatest = .gt then throw (.corruption .zoneMapBounds)
    return { bounds := some (least, greatest), hasNull }
  else return { hasNull }

theorem zoneMap_eq (f : Field) : zoneMap f = whole (ZoneMap.decode f) := by
  rw [zoneMap, ZoneMap.decode]
  simp only [whole_bind, whole_ite, byte_eq, value_eq]
  rfl

/-- A record is read on its own, and to its end. -/
def zoneMapRecord (f : Field) : Run Bytes ZoneMap := do
  let length ← varint
  let record ← take length "zone map record"
  let (outcome, left) ← zoneMap f record
  match outcome with
  | .ok z => if left.isEmpty then return z else throw (.corruption .zoneMapTail)
  | .error e => throw e

theorem zoneMapRecord_eq (f : Field) : zoneMapRecord f = whole (ZoneMap.decodeRecord f) := by
  rw [zoneMapRecord, ZoneMap.decodeRecord]
  simp only [whole_bind, varint_eq, take_eq, zoneMap_eq]
  refine bind_congr fun length => bind_congr fun record => ?_
  refine (lift_bind (a := settle (ZoneMap.decode f record)) rfl _).trans ?_
  cases ZoneMap.decode f record with
  | ok z left => cases left <;> rfl
  | error e left => rfl

def zoneMaps (f : Field) : Run Bytes (List ZoneMap) := do
  let count ← word 4 "zone map count"
  let left ← remaining
  if left / 2 < count then throw (.corruption (.zoneMapRecords count left))
  let maps ← times count (zoneMapRecord f)
  let left ← remaining
  unless left = 0 do throw (.corruption .zoneMapStreamTail)
  return maps

theorem zoneMaps_eq (f : Field) : zoneMaps f = whole (ZoneMap.decodeStream f) := by
  rw [zoneMaps, ZoneMap.decodeStream]
  simp only [whole_bind, whole_ite, word_eq, remaining_eq, zoneMapRecord_eq, times_eq]
  rfl

/-! ## Ordinal indexes -/

def pageEntry : Run Bytes PageEntry := do
  let firstOrdinal ← word64 "ordinal"
  let offset ← word64 "page offset"
  let size ← word32 "page size"
  return ⟨firstOrdinal, ⟨offset, size⟩⟩

theorem pageEntry_eq : pageEntry = whole PageEntry.decode := by
  rw [pageEntry, PageEntry.decode]
  simp only [whole_bind, word64_eq, word32_eq]
  rfl

def ordinalIndex (numRows : ℕ) : Run Bytes OrdinalIndex := do
  let count ← word 4 "ordinal index count"
  let left ← remaining
  if left ≠ count * PageEntry.size then throw (.corruption (.ordinalIndexSize count left))
  let entries ← times count pageEntry
  if let some (position, e) := OrdinalIndex.misplaced? numRows 0 0 entries then
    throw (.corruption (.ordinalIndexEntry position e.firstOrdinal.toNat numRows))
  if entries.isEmpty ≠ (numRows == 0) then
    throw (.corruption (.ordinalIndexCount entries.length numRows))
  return ⟨entries.toArray, numRows⟩

theorem ordinalIndex_eq (numRows : ℕ) :
    ordinalIndex numRows = whole (OrdinalIndex.decode numRows) := by
  rw [ordinalIndex, OrdinalIndex.decode]
  simp only [whole_bind, whole_ite, word_eq, remaining_eq, pageEntry_eq, times_eq]
  refine bind_congr fun count => bind_congr fun left => ?_
  split
  next => rfl
  next =>
    refine bind_congr fun entries => ?_
    cases OrdinalIndex.misplaced? numRows 0 0 entries with
    | some placed => rfl
    | none =>
        simp only [whole_ite]
        rfl

theorem gives_ordinalIndex (data : Bytes) (numRows : ℕ) :
    Gives (answer (ordinalIndex numRows) data) (OrdinalIndex.parse data numRows) := by
  rw [ordinalIndex_eq, Gives, answer, whole, OrdinalIndex.parse]
  cases OrdinalIndex.decode numRows data <;> rfl

/-! ## Files -/

/-- Whether a part of a file ends inside of it. A part whose end is no word does not. -/
def endsInside (offset length fileSize : ℕ) : Bool := (add 64 offset length).any (· ≤ fileSize)

theorem endsInside_iff {offset length fileSize : ℕ} (hsize : fileSize < 2 ^ 64) :
    endsInside offset length fileSize = true ↔ offset + length ≤ fileSize := by
  unfold endsInside add
  split
  next => simp
  next hlong =>
    simp only [Option.any_none, Bool.false_eq_true, false_iff, not_le]
    omega

theorem endsInside_pointer {fileSize : ℕ} (hsize : fileSize < 2 ^ 64) (p : Pointer) :
    endsInside p.offset.toNat p.size.toNat fileSize = p.within fileSize := by
  rw [Bool.eq_iff_iff, endsInside_iff hsize, Pointer.within, decide_eq_true_iff]
  rfl

def readAt (bytes : Array UInt8) (offset length : ℕ) : Outcome Bytes :=
  if endsInside offset length bytes.size then do
    let stop ← add 64 offset length
    let found ← slice bytes.toList offset stop
    return found
  else throw (.corruption (.pastEnd length offset bytes.size))

theorem gives_readAt {bytes : Array UInt8} (hsize : bytes.size < 2 ^ 64) (offset length : ℕ) :
    Gives (readAt bytes offset length) ((File.memory bytes).readAt offset length) := by
  rw [readAt, File.readAt_memory]
  simp only [endsInside_iff hsize]
  refine .ite (fun hin => ?_) fun _ => rfl
  refine .lift (add_eq (by omega)) ?_
  rw [slice_eq (by omega) (by simpa using hin), Array.toList_extract]
  rfl

/-! ## Columns -/

def requireInside (column : UInt32) (part : Section) (fileSize : ℕ) (p : Pointer) :
    Outcome Unit :=
  if endsInside p.offset.toNat p.size.toNat fileSize then return ()
  else throw (.corruption
    (.outsideFile column.toNat part p.offset.toNat p.clampedStop fileSize))

theorem gives_requireInside {fileSize : ℕ} (hsize : fileSize < 2 ^ 64) (column : UInt32)
    (part : Section) (p : Pointer) :
    Gives (requireInside column part fileSize p)
      (Column.requireInside column part fileSize p) := by
  rw [requireInside, endsInside_pointer hsize]
  exact .ite (fun _ => rfl) fun _ => rfl

def readZoneMaps (entry : ColumnMeta) (numPages : ℕ) (bytes : Array UInt8) (p : Pointer) :
    Outcome (List ZoneMap) := do
  let data ← readAt bytes p.offset.toNat p.size.toNat
  let maps ← answer (zoneMaps entry.field) data
  if maps.length ≠ numPages then
    throw (.corruption (.zoneMapCount entry.id.toNat maps.length numPages))
  return maps

def openColumn (options : ReadOptions) (entry : ColumnMeta) (numRows : ℕ) (bytes : Array UInt8) :
    Outcome Column := do
  let id := entry.id.toNat
  if entry.numRows.toNat ≠ numRows then
    throw (.corruption (.columnRows id entry.numRows.toNat numRows))
  entry.pages.toList.forM (requireInside entry.id .dataPage bytes.size)
  let some indexPointer := entry.ordinalIndex | throw (.corruption (.noOrdinalIndex id))
  requireInside entry.id .ordinalIndex bytes.size indexPointer
  entry.zoneMaps.toList.forM (requireInside entry.id .zoneMap bytes.size)
  let data ← readAt bytes indexPointer.offset.toNat indexPointer.size.toNat
  let index ← answer (ordinalIndex numRows) data
  if index.entries.map (·.pointer) ≠ entry.pages then throw (.corruption (.pagePointers id))
  let zoneMaps ← match entry.zoneMaps with
    | some p => some <$> readZoneMaps entry index.numPages bytes p
    | none => pure none
  let format ← MonadExcept.ofExcept (PageFormat.new entry.field entry.encoding entry.compression)
  return {
    entry, format, index, zoneMaps, file := .memory bytes, verify := options.verifyChecksums }

/-- The cells of a page, whose rows end where those of the next page begin. -/
def readPage (c : Column) (k : ℕ) : Outcome (List Cell) :=
  match c.index.entries[k]? with
  | none => throw (.argument (.page k c.numPages))
  | some e => do
    let after ← add 64 k 1
    let stop := (c.index.first? after).getD c.index.numRows
    let raw ← readAt c.file.bytes e.pointer.offset.toNat e.pointer.size.toNat
    let rows ← sub stop e.firstOrdinal.toNat
    page c.format raw rows c.verify

section

variable {bytes : Array UInt8} (hsize : bytes.size < 2 ^ 64)
include hsize

theorem gives_readZoneMaps (entry : ColumnMeta) (numPages : ℕ) (p : Pointer) :
    Gives (readZoneMaps entry numPages bytes p)
      (Column.readZoneMaps entry numPages (.memory bytes) p) := by
  refine (gives_readAt hsize _ _).bind fun data _ => ?_
  have hdecode := Gives.whole (ZoneMap.decodeStream entry.field) data
  rw [← zoneMaps_eq] at hdecode
  cases hmaps : ZoneMap.decodeStream entry.field data with
  | ok maps left =>
      rw [hmaps] at hdecode
      exact hdecode.step (.check fun _ => .pure maps)
  | error e left =>
      rw [hmaps] at hdecode
      exact hdecode.bind (g := fun maps => .ok maps) fun _ h => by cases h

theorem gives_openColumn (options : ReadOptions) (entry : ColumnMeta) (numRows : ℕ) :
    Gives (openColumn options entry numRows bytes)
      (Column.open options entry numRows (.memory bytes)) := by
  refine .check fun _ => ?_
  refine (Gives.forM fun p _ => gives_requireInside hsize _ _ p).bind fun _ _ => ?_
  cases entry.ordinalIndex with
  | none => exact .throw _
  | some p =>
      refine (gives_requireInside hsize _ _ p).bind fun _ _ => ?_
      refine (Gives.forM fun q _ => gives_requireInside hsize _ _ q).bind fun _ _ => ?_
      refine (gives_readAt hsize _ _).bind fun data _ => ?_
      refine (gives_ordinalIndex data numRows).bind fun index _ => .check fun _ => ?_
      cases entry.zoneMaps with
      | none => exact (Gives.ofExcept _).bind fun format _ => .pure _
      | some q =>
          refine ((gives_readZoneMaps hsize entry index.numPages q).map some).bind fun maps _ => ?_
          exact (Gives.ofExcept _).bind fun format _ => .pure _

theorem gives_readPage {c : Column} (h : c.Indexed) (hfile : c.file = .memory bytes) (k : ℕ) :
    Gives (readPage c k) (c.readPage k) := by
  rw [readPage, Column.readPage, hfile]
  cases he : c.index.entries[k]? with
  | none => exact .throw _
  | some e =>
      have hfirst : c.index.first? k = some e.firstOrdinal.toNat := by
        rw [OrdinalIndex.first?, he, Option.map_some]
      have hrange : c.index.range? k = some (e.firstOrdinal.toNat,
          (c.index.first? (k + 1)).getD c.index.numRows) := by
        rw [OrdinalIndex.range?, hfirst, Option.map_some]
      obtain ⟨hlt, hle⟩ := OrdinalIndex.range?_bounds h.ordered hrange
      -- the pages before this one have rows, so its number is below that of the rows
      have hk : k ≤ e.firstOrdinal.toNat := OrdinalIndex.le_first? h.ordered hfirst
      have hword : c.index.numRows < 2 ^ 64 := h.rows ▸ c.entry.numRows.toNat_lt
      rw [hrange]
      refine .lift (add_eq (by omega)) ((gives_readAt hsize _ _).bind fun raw hraw => ?_)
      have hlen : raw.length < 2 ^ 32 := by
        rw [(File.honest_readAt bytes _ _).holds hraw]
        exact e.pointer.size.toNat_lt
      exact .lift (sub_eq hlt.le) (gives_page c.format hlen _ c.verify)

end

end Columnar.Machine
