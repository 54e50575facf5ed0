import Columnar.Segment
import Columnar.Text.Json

/-! A summary of a segment, as a table or as a JSON document. -/

namespace Columnar.Inspect

open Text (Json)

/-- What the summary says about the short-key index. -/
structure KeyReport where
  segmentId : UInt32
  numRowsPerBlock : UInt32
  numItems : Nat
  bytes : UInt32

structure Report where
  fileSize : Nat
  footer : Footer
  shortKeys : Option KeyReport

namespace Report

def ofSegment (s : Segment) : Except Error Report := do
  let index ← s.shortKeys
  let shortKeys := match index, s.footer.shortKeys with
    | some x, some p => some ⟨x.segmentId, x.numRowsPerBlock, x.numItems, p.size⟩
    | _, _ => none
  return { fileSize := s.file.size, footer := s.footer, shortKeys }

/-- The bytes of all pages of a column. -/
def dataBytes (c : ColumnMeta) : Nat := c.pages.foldl (fun size p => size + p.size.toNat) 0

/-! ## JSON -/

def textOf : Option Value → Json
  | some v => .ofString v.text
  | none => .null

def zoneMapJson : Option ZoneMap → Json
  | some z =>
    .ofMembers [("min", textOf z.min?), ("max", textOf z.max?), ("has_null", .bool z.hasNull),
      ("has_not_null", .bool z.hasNotNull)]
  | none => .null

def columnJson (c : ColumnMeta) : Json :=
  .ofMembers
    [("column_id", .ofNat c.id.toNat), ("unique_id", .ofNat c.uniqueId.toNat),
     ("field_type", .ofString c.type.label), ("length", .ofNat c.length.toNat),
     ("nullable", .bool c.isNullable), ("encoding", .ofString c.encoding.name),
     ("compression", .ofString c.compression.name), ("num_pages", .ofNat c.pages.size),
     ("data_bytes", .ofNat (dataBytes c)), ("zone_map", zoneMapJson c.segmentZoneMap)]

def keysJson : Option KeyReport → Json
  | some k =>
    .ofMembers [("segment_id", .ofNat k.segmentId.toNat),
      ("num_rows_per_block", .ofNat k.numRowsPerBlock.toNat), ("num_items", .ofNat k.numItems),
      ("bytes", .ofNat k.bytes.toNat)]
  | none => .null

def toJson (r : Report) : Json :=
  .ofMembers
    [("file_size", .ofNat r.fileSize), ("version", .ofNat r.footer.version.toNat),
     ("num_rows", .ofNat r.footer.numRows.toNat),
     ("columns", .array (r.footer.columns.map columnJson)),
     ("short_key_index", keysJson r.shortKeys)]

/-! ## Table -/

def padding (width : Nat) (s : String) : String :=
  String.ofList (List.replicate (width - s.length) ' ')

def left (width : Nat) (s : String) : String := s ++ padding width s

def right (width : Nat) (s : String) : String := padding width s ++ s

/-- One line of the table. -/
def line (id uniqueId type encoding codec pages bytes zoneMap : String) : String :=
  " ".intercalate
    [right 4 id, right 6 uniqueId, left 10 type, left 11 encoding, left 6 codec, right 6 pages,
     right 10 bytes, " " ++ zoneMap]

def zoneMapText : Option ZoneMap → String
  | none => "-"
  | some z =>
    let range := match z.bounds with
      | some (least, greatest) => "[" ++ least.text ++ ", " ++ greatest.text ++ "]"
      | none => "empty"
    if z.hasNull then range ++ " +null" else range

def columnLine (c : ColumnMeta) : String :=
  line (toString c.id) (toString c.uniqueId) c.type.name c.encoding.name c.compression.name
    (toString c.pages.size) (toString (dataBytes c)) (zoneMapText c.segmentZoneMap)

def keysText : Option KeyReport → String
  | some ⟨_, rows, items, bytes⟩ => s!"{items} entries, every {rows} rows ({bytes} bytes)"
  | none => "none"

def lines (r : Report) : List String :=
  let (size, version, rows) := (r.fileSize, r.footer.version, r.footer.numRows)
  [s!"file size:   {size} bytes", s!"version:     {version}", s!"rows:        {rows}",
   "short keys:  " ++ keysText r.shortKeys, "",
   line "col" "uid" "type" "encoding" "codec" "pages" "bytes" "zone map"]
    ++ r.footer.columns.map columnLine

end Report

end Columnar.Inspect
