import Columnar.Page.Pointer
import Columnar.Schema
import Columnar.ZoneMap

/-! What the footer of a segment says about one column. -/

namespace Columnar

structure ColumnMeta where
  /-- The position of the column in the schema. -/
  id : UInt32
  uniqueId : UInt32
  type : FieldType
  length : UInt32
  isNullable : Bool
  encoding : Encoding
  compression : Compression
  numRows : UInt64 := 0
  pages : Array Pointer := #[]
  ordinalIndex : Option Pointer := none
  zoneMaps : Option Pointer := none
  segmentZoneMap : Option ZoneMap := none
  deriving DecidableEq

namespace ColumnMeta

def new (id : UInt32) (c : ColumnSchema) (encoding : Encoding) (compression : Compression) :
    ColumnMeta where
  id := id
  uniqueId := c.uniqueId
  type := c.type
  length := c.length
  isNullable := c.isNullable
  encoding := encoding
  compression := compression

def field (m : ColumnMeta) : Field := ⟨m.type, m.length⟩

/-- Whether the column takes a cell. -/
def check (m : ColumnMeta) : Cell → Except Error Unit
  | none => if m.isNullable then .ok () else .error (.argument (.null m.id.toNat))
  | some v => m.field.check v

def flagByte (b : Bool) : UInt8 := if b then 1 else 0

def encodeZoneMap : Option ZoneMap → Bytes
  | some z => 1 :: z.encodeRecord
  | none => [0]

def encode (m : ColumnMeta) : Bytes :=
  Varint.encode m.id.toNat ++ Varint.encode m.uniqueId.toNat ++ m.type.id
    :: Varint.encode m.length.toNat ++ flagByte m.isNullable :: m.encoding.id :: m.compression.id
    :: Varint.encode m.numRows.toNat ++ Varint.encode m.pages.size
    ++ m.pages.toList.flatMap Pointer.encode ++ Pointer.encodeOptional m.ordinalIndex
    ++ Pointer.encodeOptional m.zoneMaps ++ encodeZoneMap m.segmentZoneMap

def decode : Decoder ColumnMeta := do
  let id ← Varint.decode32
  let uniqueId ← Varint.decode32
  let type ← Decoder.named "field type" FieldType.ofId? .fieldTypeId
  let length ← Varint.decode32
  let isNullable ← Decoder.flag "is_nullable"
  let encoding ← Decoder.named "encoding" Encoding.ofId? .encodingId
  let compression ← Decoder.named "compression" Compression.ofId? .compressionId
  unless encoding.supports type do Decoder.fail (.columnEncoding id.toNat type encoding)
  let numRows ← Varint.decode
  let numPages ← Varint.decode
  let left ← Decoder.remaining
  if left / 2 < numPages then Decoder.fail (.columnPages id.toNat numPages left)
  let pages ← Decoder.times numPages Pointer.decode
  let ordinalIndex ← Pointer.decodeOptional "ordinal index pointer"
  let zoneMaps ← Pointer.decodeOptional "zone map pointer"
  let segmentZoneMap ←
    if ← Decoder.flag "segment zone map" then some <$> ZoneMap.decodeRecord ⟨type, length⟩
    else pure none
  return {
    id, uniqueId, type, length, isNullable, encoding, compression
    numRows := UInt64.ofNat numRows
    pages := pages.toArray
    ordinalIndex, zoneMaps, segmentZoneMap }

end ColumnMeta

end Columnar
