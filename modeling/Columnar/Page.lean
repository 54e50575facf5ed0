import Columnar.Crc32c
import Columnar.Page.Compression
import Columnar.Page.Values

/-! Pages: a run of cells of one column, which is compressed, checked and decoded as a whole. The
body says how many cells there are, which of them are null, and then the values of the others. -/

namespace Columnar

/-- How the pages of a column are written. -/
structure PageFormat where
  field : Field
  encoding : Encoding
  compression : Compression
  supported : encoding.supports field.type = true

def PageFormat.new (field : Field) (encoding : Encoding) (compression : Compression) :
    Except Error PageFormat :=
  if supported : encoding.supports field.type = true then
    .ok { field, encoding, compression, supported }
  else .error (.unsupported (.encoding encoding field.type))

namespace Page

/-- The most rows in a page. -/
def maxRows : Nat := 2 ^ 20

/-! ## Encoding -/

def setBit (bitmap : Array UInt8) (row : Nat) : Array UInt8 :=
  bitmap.modify (row / 8) (· ||| 1 <<< UInt8.ofNat (row % 8))

/-- Sets the bits of the nulls, the first of which is that of `row`. -/
def markNulls (row : Nat) : List Bool → Array UInt8 → Array UInt8
  | [], bitmap => bitmap
  | null :: nulls, bitmap =>
    markNulls (row + 1) nulls (if null then setBit bitmap row else bitmap)

/-- A bit for each row, set where it is null. -/
def bitmap (nulls : List Bool) : Bytes :=
  (markNulls 0 nulls (Array.replicate (bytesFor nulls.length) 0)).toList

/-- The compressed bytes, and their checksum behind them. -/
def withChecksum (compressed : Bytes) : Bytes :=
  compressed ++ Bytes.little 4 (crc32c compressed).toNat

/-! ## Decoding -/

/-- Puts each value into the next place that is not null, behind the cells that are `done`. -/
def weaveOnto : List Bool → List Value → List Cell → List Cell
  | [], _, done => done.reverse
  | true :: nulls, values, done => weaveOnto nulls values (none :: done)
  | false :: nulls, [], done => weaveOnto nulls [] (none :: done)
  | false :: nulls, v :: values, done => weaveOnto nulls values (some v :: done)

def weave (nulls : List Bool) (values : List Value) : List Cell := weaveOnto nulls values []

/-- For each of `rows` cells whether it is null. -/
def decodeNulls (rows : Nat) : Decoder (List Bool) := do
  if ← Decoder.flag "has_nulls" then
    let bitmap ← Decoder.take (bytesFor rows) "null bitmap"
    return (unpack 1 rows bitmap).map (· = 1)
  else return List.replicate rows false

/-- The cells of a body that has to hold `rows` of them. -/
def decodeBody (f : Field) (e : Encoding) (rows : Nat) : Decoder (List Cell) := do
  let count ← Varint.decode
  if count ≠ rows then Decoder.fail (.pageCount count rows)
  let nulls ← decodeNulls rows
  let values ← decodeValues f e (nulls.count false)
  let left ← Decoder.remaining
  if left ≠ 0 then Decoder.fail (.pageTail left)
  return weave nulls values

/-- Takes the checksum off a page, comparing it if `verify` holds. -/
def stripChecksum (raw : Bytes) (verify : Bool) : Except Error Bytes :=
  let size := raw.length
  if size < 4 then .error (.corruption (.pageWithoutChecksum size))
  else
    let compressed := raw.take (size - 4)
    let stored := UInt32.ofNat (Bytes.toNat (raw.drop (size - 4)))
    if verify then
      let computed := crc32c compressed
      if stored = computed then .ok compressed else .error (.checksum stored computed)
    else .ok compressed

/-- The cells of a page that has to hold `rows` of them. -/
def decode (f : PageFormat) (raw : Bytes) (rows : Nat) (verify : Bool) :
    Except Error (List Cell) := do
  if maxRows < rows then throw (.corruption (.pageRows rows maxRows))
  let compressed ← stripChecksum raw verify
  let bytes ← f.compression.decompress compressed
  match decodeBody f.field f.encoding rows bytes with
  | .ok cells _ => return cells
  | .error e _ => throw e

/-! ## Filling a page -/

/-- A page that is not closed yet: its values, and for each row whether it is null. -/
structure Draft where
  format : PageFormat
  values : Array Value := #[]
  nulls : Array Bool := #[]
  hasNulls : Bool := false
  /-- The length of the values in their plain form. -/
  valueBytes : Nat := 0

namespace Draft

def add (d : Draft) : Cell → Draft
  | some v =>
    { d with
      valueBytes := d.valueBytes + d.format.field.encodedSize v
      values := d.values.push v
      nulls := d.nulls.push false }
  | none => { d with hasNulls := true, nulls := d.nulls.push true }

def numRows (d : Draft) : Nat := d.nulls.size

def isEmpty (d : Draft) : Bool := d.nulls.isEmpty

/-- The length of the body in plain form, with a bit for each cell. -/
def estimatedSize (d : Draft) : Nat :=
  Varint.size d.numRows + 1 + bytesFor d.numRows + d.valueBytes

def isFull (d : Draft) (rows bytes : Nat) : Bool := rows ≤ d.numRows || bytes ≤ d.estimatedSize

/-- The count of the rows, the null map if there are nulls, and the values. -/
def body (d : Draft) : Except Error Bytes := do
  let values ← encodeValues d.format.field d.format.encoding d.values.toList
  let nullMap := if d.hasNulls then 1 :: bitmap d.nulls.toList else [0]
  return Varint.encode d.numRows ++ nullMap ++ values

variable [Lz4.Compressor]

def encode (d : Draft) : Except Error Bytes := do
  let body ← d.body
  return withChecksum (d.format.compression.compress body)

/-- Gives the page. What was gathered is let go only when nothing can fail any more. -/
def close : EStateM Error Draft Bytes := do
  match (← get).encode with
  | .error e => throw e
  | .ok page =>
    modify ({ · with values := #[], nulls := #[], hasNulls := false, valueBytes := 0 })
    return page

/-- The page, and the draft after that. -/
def finish (d : Draft) : Except Error (Bytes × Draft) :=
  match close d with
  | .ok page d => .ok (page, d)
  | .error e _ => .error e

end Draft

end Page

end Columnar
