import Columnar.Column.Meta
import Columnar.Crc32c

/-! Footers: what the end of a segment file says about its parts. -/

namespace Columnar

structure Footer where
  version : UInt8 := 1
  numRows : UInt64
  columns : List ColumnMeta
  shortKeys : Option Pointer := none
  deriving DecidableEq

namespace Footer

/-- The version that is written and read. -/
def supportedVersion : UInt8 := 1

def encode (f : Footer) : Bytes :=
  f.version :: Varint.encode f.numRows.toNat ++ Varint.encode f.columns.length
    ++ f.columns.flatMap ColumnMeta.encode ++ Pointer.encodeOptional f.shortKeys

/-- `count` columns, which are numbered from `position` on. -/
def decodeColumns : (count position : Nat) → Decoder (List ColumnMeta)
  | 0, _ => return []
  | count + 1, position => do
    let c ← ColumnMeta.decode
    if c.id.toNat ≠ position then Decoder.fail (.footerOrder position c.id.toNat)
    let cs ← decodeColumns count (position + 1)
    return c :: cs

def decode : Decoder Footer := do
  let version ← Decoder.byte "footer version"
  if version ≠ supportedVersion then
    throw (.unsupported (.footerVersion version supportedVersion))
  let numRows ← Varint.decode
  let numColumns ← Varint.decode
  let left ← Decoder.remaining
  if left / 8 < numColumns then Decoder.fail (.footerColumns numColumns left)
  let columns ← decodeColumns numColumns 0
  let shortKeys ← Pointer.decodeOptional "short key pointer"
  let left ← Decoder.remaining
  if left ≠ 0 then Decoder.fail (.footerTail left)
  return { version, numRows := UInt64.ofNat numRows, columns, shortKeys }

def parse (data : Bytes) : Except Error Footer :=
  match decode data with
  | .ok f _ => .ok f
  | .error e _ => .error e

/-! ## The trailer -/

def magic : Bytes := [0x44, 0x30, 0x52, 0x31]

/-- The length and the checksum of the footer, and the magic bytes. -/
def trailerSize : Nat := 12

def trailer (footer : Bytes) : Bytes :=
  Bytes.little 4 footer.length ++ Bytes.little 4 (crc32c footer).toNat ++ magic

end Footer

end Columnar
