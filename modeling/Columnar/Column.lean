import Columnar.Column.Meta
import Columnar.File
import Columnar.Options
import Columnar.OrdinalIndex
import Columnar.Page

/-! Columns opened for reading. What the footer says about a column is compared with the file before
any page is read. -/

namespace Columnar

structure Column where
  /-- What the footer says. -/
  entry : ColumnMeta
  format : PageFormat
  index : OrdinalIndex
  /-- One for each page, if the column has any. -/
  zoneMaps : Option (List ZoneMap)
  file : File
  verify : Bool

namespace Column

def requireInside (column : UInt32) (part : Section) (fileSize : Nat) (p : Pointer) :
    Except Error Unit :=
  if p.within fileSize then .ok ()
  else .error (.corruption
    (.outsideFile column.toNat part p.offset.toNat p.clampedStop fileSize))

/-- The zone maps at a pointer, one for each of `numPages` pages. -/
def readZoneMaps (entry : ColumnMeta) (numPages : Nat) (file : File) (p : Pointer) :
    Except Error (List ZoneMap) := do
  let data ← file.read p
  match ZoneMap.decodeStream entry.field data with
  | .error e _ => throw e
  | .ok maps _ =>
    if maps.length ≠ numPages then
      throw (.corruption (.zoneMapCount entry.id.toNat maps.length numPages))
    return maps

/-- Opens a column of a segment with `numRows` rows. -/
def «open» (options : ReadOptions) (entry : ColumnMeta) (numRows : Nat) (file : File) :
    Except Error Column := do
  let id := entry.id.toNat
  if entry.numRows.toNat ≠ numRows then
    throw (.corruption (.columnRows id entry.numRows.toNat numRows))
  entry.pages.toList.forM (requireInside entry.id .dataPage file.size)
  let some indexPointer := entry.ordinalIndex | throw (.corruption (.noOrdinalIndex id))
  requireInside entry.id .ordinalIndex file.size indexPointer
  entry.zoneMaps.toList.forM (requireInside entry.id .zoneMap file.size)
  let data ← file.read indexPointer
  let index ← OrdinalIndex.parse data numRows
  if index.entries.map (·.pointer) ≠ entry.pages then throw (.corruption (.pagePointers id))
  let zoneMaps ← match entry.zoneMaps with
    | some p => some <$> readZoneMaps entry index.numPages file p
    | none => pure none
  let format ← PageFormat.new entry.field entry.encoding entry.compression
  return { entry, format, index, zoneMaps, file, verify := options.verifyChecksums }

def numRows (c : Column) : Nat := c.entry.numRows.toNat

def numPages (c : Column) : Nat := c.index.numPages

/-- The cells of a page. -/
def readPage (c : Column) (page : Nat) : Except Error (List Cell) :=
  match c.index.entries[page]?, c.index.range? page with
  | some e, some (first, stop) => do
    let raw ← c.file.read e.pointer
    Page.decode c.format raw (stop - first) c.verify
  | _, _ => .error (.argument (.page page c.numPages))

/-- Which pages could hold a value, if there are zone maps. -/
def mayContain (c : Column) (v : Value) : Option (List Bool) :=
  c.zoneMaps.map fun maps => maps.map (·.mayContain v)

def describe (c : Column) : String :=
  let (id, rows, pages) := (c.entry.id, c.numRows, c.numPages)
  s!"ColumnReader \x7b column_id: {id}, num_rows: {rows}, num_pages: {pages} \x7d"

end Column

end Columnar
