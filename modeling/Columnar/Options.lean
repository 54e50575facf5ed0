import Columnar.Schema.Json

/-! How segments and columns are written and read. -/

namespace Columnar

open Text (Json)

structure ColumnOptions where
  /-- The default of the column's type if nothing is given. -/
  encoding : Option Encoding := none
  compression : Compression := .lz4
  needZoneMap : Bool := false
  /-- A page is closed when it is estimated to have reached this many bytes. -/
  dataPageSize : Nat := 65536
  /-- A page is closed when it holds this many rows. -/
  maxRowsPerPage : Nat := 1024
  /-- The bytes that a string bound of a zone map is cut to. -/
  zoneMapMaxStringLength : Nat := 512
  deriving DecidableEq

structure SegmentOptions where
  /-- The rows from one entry of the short-key index to the next. -/
  numRowsPerBlock : Nat := 1024
  compression : Compression := .lz4
  dataPageSize : Nat := 65536
  maxRowsPerPage : Nat := 1024
  zoneMapMaxStringLength : Nat := 512
  deriving DecidableEq

structure ReadOptions where
  /-- Whether the checksum of a page is compared before the page is decoded. -/
  verifyChecksums : Bool := true
  deriving DecidableEq

/-- Only key columns have zone maps. -/
def SegmentOptions.column (o : SegmentOptions) (c : ColumnSchema) : ColumnOptions where
  compression := o.compression
  needZoneMap := c.isKey
  dataPageSize := o.dataPageSize
  maxRowsPerPage := o.maxRowsPerPage
  zoneMapMaxStringLength := o.zoneMapMaxStringLength

/-! ## As JSON documents -/

def ColumnOptions.toJson (o : ColumnOptions) : Json :=
  .ofMembers
    [("encoding", (o.encoding.map fun e => .ofString e.name).getD .null),
     ("compression", .ofString o.compression.name), ("need_zone_map", .bool o.needZoneMap),
     ("data_page_size", .ofNat o.dataPageSize), ("max_rows_per_page", .ofNat o.maxRowsPerPage),
     ("zone_map_max_string_length", .ofNat o.zoneMapMaxStringLength)]

def SegmentOptions.toJson (o : SegmentOptions) : Json :=
  .ofMembers
    [("num_rows_per_block", .ofNat o.numRowsPerBlock),
     ("compression", .ofString o.compression.name), ("data_page_size", .ofNat o.dataPageSize),
     ("max_rows_per_page", .ofNat o.maxRowsPerPage),
     ("zone_map_max_string_length", .ofNat o.zoneMapMaxStringLength)]

def ReadOptions.toJson (o : ReadOptions) : Json :=
  .ofMembers [("verify_checksums", .bool o.verifyChecksums)]

def ColumnOptions.ofJson? (j : Json) : Option ColumnOptions := do
  match ← j.fields? ["encoding", "compression", "need_zone_map", "data_page_size",
      "max_rows_per_page", "zone_map_max_string_length"] with
  | [encoding, compression, needZoneMap, pageSize, maxRows, maxString] =>
    return {
      encoding :=
        ← Json.withDefault? (Json.optional? (Json.choice? Encoding.ofName?)) none encoding
      compression := ← Json.withDefault? (Json.choice? Compression.ofName?) .lz4 compression
      needZoneMap := ← Json.withDefault? Json.bool? false needZoneMap
      dataPageSize := ← Json.withDefault? Json.size? 65536 pageSize
      maxRowsPerPage := ← Json.withDefault? Json.size? 1024 maxRows
      zoneMapMaxStringLength := ← Json.withDefault? Json.size? 512 maxString }
  | _ => none

def SegmentOptions.ofJson? (j : Json) : Option SegmentOptions := do
  match ← j.fields? ["num_rows_per_block", "compression", "data_page_size", "max_rows_per_page",
      "zone_map_max_string_length"] with
  | [rowsPerBlock, compression, pageSize, maxRows, maxString] =>
    return {
      numRowsPerBlock := ← Json.withDefault? Json.size? 1024 rowsPerBlock
      compression := ← Json.withDefault? (Json.choice? Compression.ofName?) .lz4 compression
      dataPageSize := ← Json.withDefault? Json.size? 65536 pageSize
      maxRowsPerPage := ← Json.withDefault? Json.size? 1024 maxRows
      zoneMapMaxStringLength := ← Json.withDefault? Json.size? 512 maxString }
  | _ => none

def ReadOptions.ofJson? (j : Json) : Option ReadOptions := do
  match ← j.fields? ["verify_checksums"] with
  | [verify] => return { verifyChecksums := ← Json.withDefault? Json.bool? true verify }
  | _ => none

end Columnar
