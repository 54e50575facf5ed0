import Columnar.Codec
import Columnar.Segment.Stage

/-! Why an operation failed. Each failure is a cause with the facts of the case; the texts are
written in one place, `Error.message`. -/

namespace Columnar

/-- Lower-case hexadecimal digits, at least `width` of them. -/
def hexadecimal (width n : Nat) : String :=
  let digits := Nat.toDigits 16 n
  String.ofList (List.replicate (width - digits.length) '0' ++ digits)

/-- The part of a file that a column section is. -/
inductive Section
  | dataPage | ordinalIndex | zoneMap
  deriving DecidableEq

namespace Section

def name : Section → String
  | dataPage => "data page"
  | ordinalIndex => "ordinal index"
  | zoneMap => "zone map"

instance : ToString Section := ⟨name⟩

end Section

/-- Bytes that no writer produces. -/
inductive Corruption
  | varintOverflow
  | varintTruncated
  | varintTooLarge (value : Nat)
  | truncated (what : String) (need remaining : Nat)
  | flag (what : String) (byte : UInt8)
  | fieldTypeId (id : UInt8)
  | encodingId (id : UInt8)
  | compressionId (id : UInt8)
  | boolByte (byte : UInt8)
  | outOfRange (image : Int) (type : FieldType)
  | bitWidth (width : Nat)
  | bitRun
  | dictionarySize (entries bytes : Nat)
  | dictionaryEntry (length : Nat)
  | dictionaryCode (code entries : Nat)
  | pageRows (rows limit : Nat)
  | pageWithoutChecksum (bytes : Nat)
  | pageCount (held expected : Nat)
  | pageTail (bytes : Nat)
  | zoneMapFlags (flags : UInt8)
  | zoneMapBounds
  | zoneMapTail
  | zoneMapRecords (count bytes : Nat)
  | zoneMapStreamTail
  | ordinalIndexSize (entries bytes : Nat)
  | ordinalIndexEntry (position ordinal rows : Nat)
  | ordinalIndexCount (entries rows : Nat)
  | shortKeySize (bytes expected : Nat)
  | shortKeyOffsets (items bytes : Nat)
  | shortKeyItems (items rows rowsPerBlock : Nat)
  | shortKeyOrder (offset item : Nat)
  | shortKeyRows (covered rows : Nat)
  | columnEncoding (column : Nat) (type : FieldType) (encoding : Encoding)
  | columnPages (column pages bytes : Nat)
  | columnRows (column held rows : Nat)
  | outsideFile (column : Nat) (part : Section) (start stop size : Nat)
  | noOrdinalIndex (column : Nat)
  | pagePointers (column : Nat)
  | zoneMapCount (column maps pages : Nat)
  | footerColumns (columns bytes : Nat)
  | footerOrder (position column : Nat)
  | footerTail (bytes : Nat)
  | fileTooSmall (size : Nat)
  | footerTooLarge (footer size : Nat)
  | shortKeyOverlap (start stop footer : Nat)
  | unevenColumns (column produced expected : Nat)
  | pastEnd (length offset size : Nat)

namespace Corruption

def message : Corruption → String
  | varintOverflow => "varint overflows u64"
  | varintTruncated => "truncated varint"
  | varintTooLarge value => s!"varint {value} overflows u32"
  | truncated what need remaining => s!"truncated {what}: need {need} bytes, {remaining} remaining"
  | flag what byte => s!"invalid {what} flag: {byte}"
  | fieldTypeId id => s!"unknown field type id {id}"
  | encodingId id => s!"unknown encoding id {id}"
  | compressionId id => s!"unknown compression id {id}"
  | boolByte byte => s!"invalid BOOL byte {byte}"
  | outOfRange image type => s!"value {image} out of range for {type}"
  | bitWidth width => s!"bit width {width} exceeds 64"
  | bitRun => "bit-packed run too long"
  | dictionarySize entries bytes => s!"dictionary of {entries} entries in {bytes} bytes"
  | dictionaryEntry length => s!"dictionary entry longer than declared length {length}"
  | dictionaryCode code entries => s!"dictionary code {code} out of range ({entries} entries)"
  | pageRows rows limit => s!"page of {rows} rows exceeds the {limit} row limit"
  | pageWithoutChecksum bytes => s!"page of {bytes} bytes has no checksum trailer"
  | pageCount held expected => s!"page holds {held} values, ordinal index expects {expected}"
  | pageTail bytes => s!"{bytes} trailing bytes after page values"
  | zoneMapFlags flags => "invalid zone map flags 0x" ++ hexadecimal 2 flags.toNat
  | zoneMapBounds => "zone map min is greater than max"
  | zoneMapTail => "trailing bytes in zone map record"
  | zoneMapRecords count bytes => s!"{count} zone map records in {bytes} bytes"
  | zoneMapStreamTail => "trailing bytes after zone map records"
  | ordinalIndexSize entries bytes =>
    s!"ordinal index claims {entries} entries but holds {bytes} bytes"
  | ordinalIndexEntry position ordinal rows =>
    s!"ordinal index entry {position} has ordinal {ordinal} (rows: {rows})"
  | ordinalIndexCount entries rows => s!"ordinal index has {entries} entries for {rows} rows"
  | shortKeySize bytes expected =>
    s!"short key index body is {bytes} bytes, header says {expected}"
  | shortKeyOffsets items bytes => s!"{items} short key items but {bytes} offset bytes"
  | shortKeyItems items rows rowsPerBlock =>
    s!"{items} short key items for {rows} rows at {rowsPerBlock} rows per block"
  | shortKeyOrder offset item => s!"short key offset {offset} at item {item} is out of order"
  | shortKeyRows covered rows =>
    s!"short key index covers {covered} rows, segment holds {rows}"
  | columnEncoding column type encoding =>
    s!"column {column} stores {type} with {encoding} encoding"
  | columnPages column pages bytes =>
    s!"column {column} claims {pages} pages in {bytes} footer bytes"
  | columnRows column held rows => s!"column {column} holds {held} rows, segment holds {rows}"
  | outsideFile column part start stop size =>
    s!"column {column} {part} [{start}, {stop}) outside {size}-byte file"
  | noOrdinalIndex column => s!"column {column} has no ordinal index"
  | pagePointers column =>
    s!"column {column} ordinal index disagrees with its data page pointers"
  | zoneMapCount column maps pages => s!"column {column} has {maps} zone maps for {pages} pages"
  | footerColumns columns bytes => s!"footer claims {columns} columns in {bytes} bytes"
  | footerOrder position column => s!"footer entry {position} describes column {column}"
  | footerTail bytes => s!"{bytes} trailing bytes after segment footer"
  | fileTooSmall size => s!"{size}-byte file is too small for a segment trailer"
  | footerTooLarge footer size => s!"footer of {footer} bytes does not fit in {size}-byte file"
  | shortKeyOverlap start stop footer =>
    s!"short key index [{start}, {stop}) overlaps footer at {footer}"
  | unevenColumns column produced expected =>
    s!"column {column} produced {produced} rows, expected {expected}"
  | pastEnd length offset size =>
    s!"read of {length} bytes at offset {offset} past end of {size}-byte file"

end Corruption

/-- Why compressed bytes do not expand. -/
inductive BadCompression
  /-- The length in front of the block is itself cut short. -/
  | noSize (cause : Corruption)
  /-- No block of this length reaches the claimed length. -/
  | unreachable (bytes claimed : Nat)
  | outputTooSmall (capacity needed : Nat)
  | literalPastEnd
  | endOfBlock
  /-- A match that starts where it is copied to. -/
  | zeroOffset
  /-- A match that starts before the first byte. -/
  | offsetBeforeStart

namespace BadCompression

def message : BadCompression → String
  | noSize cause => "Corruption: " ++ cause.message
  | unreachable bytes claimed => s!"{bytes} compressed bytes cannot expand to {claimed}"
  | outputTooSmall capacity needed =>
    s!"provided output is too small for the decompressed data, actual {capacity}, expected {needed}"
  | literalPastEnd => "literal is out of bounds of the input"
  | endOfBlock => "expected another byte, found none"
  | zeroOffset => "0 is not a valid match offset"
  | offsetBeforeStart => "the offset to copy is not contained in the decompressed buffer"

end BadCompression

/-- A step that was taken too early or too late. -/
inductive BadState
  | columnFinished (column : Nat)
  | columnUnfinished (step : String) (column : Nat)
  | shortKeysFinalized
  | stage (step : String) (segment : Nat) (now : Segment.Stage)
  | noOutput (segment : Nat)
  | noShortKeys (segment : Nat)

namespace BadState

def message : BadState → String
  | columnFinished column => s!"column {column} already finished"
  | columnUnfinished step column => s!"{step} on column {column} before finish()"
  | shortKeysFinalized => "short key index already finalized"
  | stage step segment now => s!"{step}() on segment {segment} in state {now}"
  | noOutput segment => s!"segment {segment} has no open output"
  | noShortKeys segment => s!"segment {segment} has no short key index"

end BadState

/-- What a caller asked for and cannot have. -/
inductive BadArgument
  | kind (found : Kind) (type : FieldType)
  | length (type : FieldType) (bytes declared : Nat)
  | noColumns
  | duplicateId (id : Nat)
  | keyAfterValue
  | shortKeyColumns (requested keys : Nat)
  | blockRows (index rows expected : Nat)
  | pageLimit (rows limit : Nat)
  | null (index : Nat)
  | page (index pages : Nat)
  | seek (ordinal rows : Nat)
  | emptyBatch
  | column (index columns : Nat)
  | rowWidth (cells columns : Nat)
  | zeroLimit
  | blockTooLarge (rows : Nat)

namespace BadArgument

def message : BadArgument → String
  | kind found type => s!"{found} value does not match column type {type}"
  | length type bytes declared =>
    s!"{type} value of {bytes} bytes exceeds declared length {declared}"
  | noColumns => "schema has no columns"
  | duplicateId id => s!"duplicate column unique id {id}"
  | keyAfterValue => "key columns must precede value columns"
  | shortKeyColumns requested keys =>
    s!"{requested} short key columns requested but schema has {keys} key columns"
  | blockRows index rows expected => s!"column {index} has {rows} rows, expected {expected}"
  | pageLimit rows limit => s!"max_rows_per_page {rows} outside 1..={limit}"
  | null index => s!"null appended to non-nullable column {index}"
  | page index pages => s!"page {index} out of range ({pages} pages)"
  | seek ordinal rows => s!"seek to ordinal {ordinal} past {rows} rows"
  | emptyBatch => "next_batch of zero rows"
  | column index columns => s!"column {index} out of range ({columns} columns)"
  | rowWidth cells columns => s!"row has {cells} cells, schema has {columns} columns"
  | zeroLimit => "num_rows_per_block and max_rows_per_page must be positive"
  | blockTooLarge rows => s!"num_rows_per_block {rows} exceeds u32"

end BadArgument

/-- What the format has no room for. -/
inductive Unsupported
  | packedKind (kind : Kind) (type : FieldType)
  | dictionaryKind (kind : Kind) (type : FieldType)
  | notIntegerLike (type : FieldType)
  | sectionSize (bytes : Nat)
  | encoding (found : Encoding) (type : FieldType)
  | shortKeyBytes
  | rows (count : Nat)
  | footerVersion (version supported : UInt8)

namespace Unsupported

def message : Unsupported → String
  | packedKind kind type => s!"bit-packed encoding of {kind} values for {type} column"
  | dictionaryKind kind type => s!"dictionary encoding of {kind} values for {type} column"
  | notIntegerLike type => s!"{type} values are not integer-like"
  | sectionSize bytes => s!"section of {bytes} bytes exceeds 4 GiB"
  | encoding found type => s!"{found} encoding is not valid for {type} columns"
  | shortKeyBytes => "short key index exceeds 4 GiB"
  | rows count => s!"{count} rows exceed u32"
  | footerVersion version supported =>
    s!"segment footer version {version} (supported: {supported})"

end Unsupported

/-- What the system that keeps the files answered. -/
inductive FileFault
  | notFound
  | alreadyExists
  | notDirectory
  | isDirectory
  | nameTooLong
  /-- The file ended before all bytes were read. -/
  | endOfFile

namespace FileFault

def message : FileFault → String
  | notFound => "No such file or directory (os error 2)"
  | alreadyExists => "File exists (os error 17)"
  | notDirectory => "Not a directory (os error 20)"
  | isDirectory => "Is a directory (os error 21)"
  | nameTooLong => "File name too long (os error 36)"
  | endOfFile => "failed to fill whole buffer"

end FileFault

inductive Error
  | file (cause : FileFault)
  | badMagic
  | checksum (stored computed : UInt32)
  | corruption (cause : Corruption)
  | compression (cause : BadCompression)
  | footerSize (bytes : Nat)
  | state (cause : BadState)
  | argument (cause : BadArgument)
  | unsupported (cause : Unsupported)

namespace Error

def message : Error → String
  | file cause => "IO error: " ++ cause.message
  | badMagic => "Invalid magic bytes"
  | checksum stored computed =>
    "Checksum mismatch: stored 0x" ++ hexadecimal 8 stored.toNat ++ ", computed 0x"
      ++ hexadecimal 8 computed.toNat
  | corruption cause => "Corruption: " ++ cause.message
  | compression cause => "Decompression error: " ++ cause.message
  | footerSize bytes => s!"Serialization error: footer of {bytes} bytes exceeds u32"
  | state cause => "Invalid state: " ++ cause.message
  | argument cause => "Invalid argument: " ++ cause.message
  | unsupported cause => "Unsupported feature: " ++ cause.message

/-- The failures that put the stored bytes in doubt. -/
def isCorruption : Error → Bool
  | badMagic | checksum .. | corruption _ | compression _ => true
  | file _ | footerSize _ | state _ | argument _ | unsupported _ => false

end Error

end Columnar
