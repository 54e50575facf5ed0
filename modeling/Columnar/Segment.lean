import Columnar.Column
import Columnar.Segment.Footer
import Columnar.ShortKeyIndex

/-! Segments opened for reading. The end of the file leads to the footer, and the footer to all
other parts. -/

namespace Columnar

structure Segment where
  file : File
  footer : Footer

namespace Segment

/-- The length and the checksum of the footer. -/
def readTrailer (file : File) : Except Error (Nat × UInt32) := do
  if file.size < Footer.trailerSize then throw (.corruption (.fileTooSmall file.size))
  let trailer ← file.readAt (file.size - Footer.trailerSize) Footer.trailerSize
  if trailer.drop 8 ≠ Footer.magic then throw .badMagic
  return (Bytes.toNat (trailer.take 4), UInt32.ofNat (Bytes.toNat ((trailer.drop 4).take 4)))

def «open» (file : File) : Except Error Segment := do
  let (size, stored) ← readTrailer file
  let room := file.size - Footer.trailerSize
  if room < size then throw (.corruption (.footerTooLarge size file.size))
  let start := room - size
  let bytes ← file.readAt start size
  let computed := crc32c bytes
  if stored ≠ computed then throw (.checksum stored computed)
  let footer ← Footer.parse bytes
  if let some p := footer.shortKeys then
    if ¬ p.within start then
      throw (.corruption (.shortKeyOverlap p.offset.toNat p.clampedStop start))
  return { file, footer }

def numRows (s : Segment) : Nat := s.footer.numRows.toNat

def numColumns (s : Segment) : Nat := s.footer.columns.length

def column (s : Segment) (id : Nat) (options : ReadOptions) : Except Error Column :=
  match s.footer.columns[id]? with
  | some entry => Column.open options entry s.numRows s.file
  | none => .error (.argument (.column id s.numColumns))

/-- The short-key index, if the segment has one. -/
def shortKeys (s : Segment) : Except Error (Option ShortKeyIndex) :=
  match s.footer.shortKeys with
  | none => .ok none
  | some p => do
    let data ← s.file.read p
    let index ← ShortKeyIndex.parse data
    if index.numRows.toNat ≠ s.numRows then
      throw (.corruption (.shortKeyRows index.numRows.toNat s.numRows))
    return some index

def zoneMap? (s : Segment) (column : Nat) : Option ZoneMap :=
  s.footer.columns[column]?.bind (·.segmentZoneMap)

def describe (s : Segment) : String :=
  let (size, rows, columns) := (s.file.size, s.numRows, s.numColumns)
  s!"SegmentReader \x7b file_size: {size}, num_rows: {rows}, num_columns: {columns} \x7d"

end Segment

end Columnar
