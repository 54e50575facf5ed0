import Columnar.Column.Meta
import Columnar.File
import Columnar.Options
import Columnar.OrdinalIndex
import Columnar.Page

/-! Writing a column. Cells gather in pages, which are closed when they are full. What is closed
stays in memory until its place in the file is known; then come the pages, the ordinal index and
the zone maps, each in one piece. -/

namespace Columnar

/-- A page that is closed but not written. -/
structure ClosedPage where
  firstOrdinal : UInt64
  bytes : Bytes

structure ColumnWriter where
  /-- What the footer will say, as far as it is known. -/
  entry : ColumnMeta
  options : ColumnOptions
  page : Page.Draft
  zoneMaps : Option ZoneMapDraft
  /-- The pages that are closed but not written. -/
  closed : Array ClosedPage := #[]
  /-- How many bytes they have. -/
  closedSize : Nat := 0
  /-- The pages that are written. -/
  index : Array PageEntry := #[]
  /-- The ordinal of the first row of the page that is being filled. -/
  pageFirst : UInt64 := 0
  finished : Bool := false

namespace ColumnWriter

variable [Lz4.Compressor]

def new (id : UInt32) (c : ColumnSchema) (options : ColumnOptions) : Except Error ColumnWriter := do
  let limit := options.maxRowsPerPage
  if limit = 0 ∨ Page.maxRows < limit then throw (.argument (.pageLimit limit Page.maxRows))
  let encoding := options.encoding.getD (Encoding.default c.type)
  let format ← PageFormat.new c.field encoding options.compression
  return {
    entry := ColumnMeta.new id c encoding options.compression
    options
    page := { format }
    zoneMaps :=
      if options.needZoneMap then some { maxLength := options.zoneMapMaxStringLength } else none }

def numRows (w : ColumnWriter) : Nat := w.entry.numRows.toNat

/-- Whether the column takes a cell. -/
def check (w : ColumnWriter) (c : Cell) : Except Error Unit := w.entry.check c

/-- The writer with one more page that is closed. -/
def pushPage (w : ColumnWriter) (bytes : Bytes) : ColumnWriter :=
  { w with
    closed := w.closed.push ⟨w.pageFirst, bytes⟩
    closedSize := w.closedSize + bytes.length
    pageFirst := w.entry.numRows
    zoneMaps := w.zoneMaps.map ZoneMapDraft.flush }

/-- Closes the page that is being filled, if it holds anything. -/
def closePage : EStateM Error ColumnWriter Unit := fun w =>
  if w.page.isEmpty then .ok () w
  else
    match Page.Draft.close w.page with
    | .ok bytes page => .ok () ({ w with page }.pushPage bytes)
    | .error e page => .error e { w with page }

/-- The writer with one more cell, before the page is looked at. -/
def add (w : ColumnWriter) (c : Cell) : ColumnWriter :=
  { w with
    page := w.page.add c
    zoneMaps := w.zoneMaps.map (·.add c)
    entry := { w.entry with numRows := w.entry.numRows + 1 } }

def isPageFull (w : ColumnWriter) : Bool :=
  w.page.isFull w.options.maxRowsPerPage w.options.dataPageSize

/-- Takes one cell. A cell that is refused changes nothing. -/
def append (c : Cell) : EStateM Error ColumnWriter Unit := do
  let w ← get
  if w.finished then throw (.state (.columnFinished w.entry.id.toNat))
  if let .error e := w.check c then throw e
  set (w.add c)
  if (← get).isPageFull then closePage

/-- Takes cells up to the first that is refused. -/
def appendAll : List Cell → EStateM Error ColumnWriter Unit
  | [] => fun w => .ok () w
  | c :: cs => fun w =>
    match append c w with
    | .ok _ w => appendAll cs w
    | .error e w => .error e w

/-- Closes the last page. No more cells are taken. -/
def finish : EStateM Error ColumnWriter Unit := do
  closePage
  modify ({ · with finished := true })

/-- A writer together with the file that it writes to. -/
abbrev Output := EStateM Error (ColumnWriter × OutputFile)

/-- Refuses a step that is taken before `finish`. -/
def requireFinished (step : String) : Output Unit := do
  let (w, _) ← get
  unless w.finished do throw (.state (.columnUnfinished step w.entry.id.toNat))

/-- Appends a section to the file, and says where it lies. -/
def writeSection (bytes : Bytes) : Output Pointer := fun (w, file) =>
  match Pointer.new file.size bytes.length with
  | .ok pointer => .ok pointer (w, file.append bytes)
  | .error e => .error e (w, file)

/-- Writes closed pages in order. If one cannot be written, those behind it are lost. -/
def writePages : List ClosedPage → Output Unit
  | [] => fun s => .ok () s
  | page :: pages => fun s =>
    match writeSection page.bytes s with
    | .ok pointer (w, file) =>
      writePages pages
        ({ w with
            index := w.index.push ⟨page.firstOrdinal, pointer⟩
            entry := { w.entry with pages := w.entry.pages.push pointer } }, file)
    | .error e s => .error e s

def writeData : Output Unit := do
  requireFinished "write_data"
  let (w, file) ← get
  set ({ w with closed := #[] }, file)
  writePages w.closed.toList
  modify fun (w, file) => ({ w with closedSize := 0 }, file)

def writeOrdinalIndex : Output Unit := do
  requireFinished "write_ordinal_index"
  let (w, _) ← get
  let pointer ← writeSection (OrdinalIndex.encode w.index.toList)
  modify fun (w, file) => ({ w with entry := { w.entry with ordinalIndex := some pointer } }, file)

/-- Writes the zone maps, if the column has any. -/
def writeZoneMaps : Output Unit := do
  requireFinished "write_zone_map"
  let (w, _) ← get
  if let some draft := w.zoneMaps then
    let pointer ← writeSection draft.encode
    modify fun (w, file) =>
      ({ w with entry := { w.entry with
          zoneMaps := some pointer, segmentZoneMap := some draft.segment } }, file)

/-- Closes the column, and writes its sections one after the other. -/
def writeAll : Output Unit := do
  let (w, file) ← get
  match finish w with
  | .error e w =>
    set (w, file)
    throw e
  | .ok _ w =>
    set (w, file)
    writeData
    writeOrdinalIndex
    writeZoneMaps

/-- The bytes of the sections, as far as they are known, without what is written already. -/
def estimatedSize (w : ColumnWriter) : Nat :=
  w.closedSize + w.page.estimatedSize
    + OrdinalIndex.encodedSize w.index.size + w.closed.size * PageEntry.size
    + (w.zoneMaps.map ZoneMapDraft.size).getD 0

end ColumnWriter

end Columnar
