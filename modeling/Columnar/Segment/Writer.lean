import Columnar.Column.Writer
import Columnar.Segment.Footer
import Columnar.ShortKeyIndex

/-! Writing a segment: all columns side by side, a short key for each block of rows, and the footer
at the end. -/

namespace Columnar

structure SegmentWriter where
  id : UInt32
  schema : Schema
  options : SegmentOptions
  stage : Segment.Stage := .created
  output : Option OutputFile := none
  columns : List ColumnWriter := []
  shortKeys : Option ShortKeyDraft := none
  numRows : Nat := 0

namespace SegmentWriter

open Segment (Stage)

/-- Refuses a step out of its time. -/
def require (step : String) (allowed : Stage → Bool) : EStateM Error SegmentWriter Unit := do
  let w ← get
  unless allowed w.stage do throw (.state (.stage step w.id.toNat w.stage))

/-- A writer for each column, numbered from `position` on. -/
def columnWriters (options : SegmentOptions) (position : Nat) :
    List ColumnSchema → Except Error (List ColumnWriter)
  | [] => .ok []
  | c :: cs => do
    let w ← ColumnWriter.new (UInt32.ofNat position) c (options.column c)
    let ws ← columnWriters options (position + 1) cs
    return w :: ws

/-- Gets ready to write to `target`, which is what came of opening the output. -/
def init (target : Except Error OutputFile) : EStateM Error SegmentWriter Unit := do
  require "init" (· = .created)
  let w ← get
  let perBlock := w.options.numRowsPerBlock
  if perBlock = 0 ∨ w.options.maxRowsPerPage = 0 then throw (.argument .zeroLimit)
  if 2 ^ 32 ≤ perBlock then throw (.argument (.blockTooLarge perBlock))
  match columnWriters w.options 0 w.schema.columns, target with
  | .error e, _ | _, .error e => throw e
  | .ok columns, .ok file =>
    set { w with
      columns
      output := some file
      shortKeys := some { segmentId := w.id, numRowsPerBlock := UInt32.ofNat perBlock }
      stage := .initialized }

/-- Whether each column takes its cell; the first that does not gives the reason. -/
def checkCells : List ColumnWriter → Row → Except Error Unit
  | w :: ws, c :: cs => do
    w.check c
    checkCells ws cs
  | _, _ => .ok ()

/-- A step of the columns as one of the segment. -/
def onColumns (step : EStateM Error (List ColumnWriter) Unit) :
    EStateM Error SegmentWriter Unit := fun w =>
  let rest := { w with columns := [] }
  match step w.columns with
  | .ok _ columns => .ok () { rest with columns }
  | .error e columns => .error e { rest with columns }

/-- The writer with the key of a row. -/
def pushKey (w : SegmentWriter) (row : Row) : SegmentWriter :=
  let write := w.schema.writeShortKey row
  { w with shortKeys := w.shortKeys.map (·.pushWith write) }

theorem pushKey_eq (w : SegmentWriter) (row : Row) :
    w.pushKey row = { w with shortKeys := w.shortKeys.map (·.push (w.schema.shortKey row)) } := by
  have hwrite : w.schema.writeShortKey row = (w.schema.shortKey row).appendTo :=
    funext (w.schema.writeShortKey_eq row)
  rw [pushKey, hwrite]
  rfl

/-- Adds the key of a row that begins a block. -/
def addKey (row : Row) : EStateM Error SegmentWriter Unit := fun w =>
  if w.numRows % w.options.numRowsPerBlock ≠ 0 then .ok () w
  else
    match w.shortKeys.bind ShortKeyDraft.refusal? with
    | none => .ok () (w.pushKey row)
    | some e => .error e w

variable [Lz4.Compressor]

/-- Gives each column its cell. -/
def appendCells : Row → EStateM Error (List ColumnWriter) Unit
  | c :: cs, w :: ws =>
    match ColumnWriter.append c w with
    | .error e w => .error e (w :: ws)
    | .ok _ w =>
      match appendCells cs ws with
      | .ok _ ws => .ok () (w :: ws)
      | .error e ws => .error e (w :: ws)
  | _, ws => .ok () ws

/-- Takes a row. All cells are looked at before any column gets its own. -/
def append (row : Row) : EStateM Error SegmentWriter Unit := do
  require "append_row" Stage.isOpen
  let w ← get
  if row.length ≠ w.columns.length then
    throw (.argument (.rowWidth row.length w.columns.length))
  if let .error e := checkCells w.columns row then throw e
  onColumns (appendCells row)
  addKey row
  modify fun w => { w with numRows := w.numRows + 1, stage := .appending }

/-- Takes rows up to the first that is refused. -/
def appendAll : List Row → EStateM Error SegmentWriter Unit
  | [] => fun w => .ok () w
  | r :: rs => fun w =>
    match append r w with
    | .ok _ w => appendAll rs w
    | .error e w => .error e w

/-- Counted for the trailer, in estimates. -/
def trailerEstimate : Nat := 8

/-- The size of the file, as far as it is known. -/
def estimatedSize (w : SegmentWriter) : Nat :=
  w.columns.foldl (fun size c => size + c.estimatedSize) trailerEstimate
    + (w.shortKeys.map ShortKeyDraft.size).getD 0

/-! ## Finishing -/

/-- All columns together with the file that they write to. -/
abbrev Sections := EStateM Error (List ColumnWriter × OutputFile)

/-- Takes a step with each column, up to the first that fails. -/
def eachOf (step : ColumnWriter.Output Unit) :
    List ColumnWriter → OutputFile → EStateM.Result Error (List ColumnWriter × OutputFile) Unit
  | [], file => .ok () ([], file)
  | w :: ws, file =>
    match step (w, file) with
    | .error e (w, file) => .error e (w :: ws, file)
    | .ok _ (w, file) =>
      match eachOf step ws file with
      | .ok _ (ws, file) => .ok () (w :: ws, file)
      | .error e (ws, file) => .error e (w :: ws, file)

def eachColumn (step : ColumnWriter.Output Unit) : Sections Unit := fun (ws, file) =>
  eachOf step ws file

/-- Closes a column and writes its pages. -/
def finishColumn : ColumnWriter.Output Unit := fun (w, file) =>
  match ColumnWriter.finish w with
  | .ok _ w => ColumnWriter.writeData (w, file)
  | .error e w => .error e (w, file)

/-- All pages, then all ordinal indexes, then all zone maps. -/
def writeColumns : Sections Unit := do
  eachColumn finishColumn
  eachColumn ColumnWriter.writeOrdinalIndex
  eachColumn ColumnWriter.writeZoneMaps

/-- Appends to the output. -/
def write (bytes : Bytes) : EStateM Error SegmentWriter Unit :=
  modify fun w => { w with output := w.output.map (·.append bytes) }

/-- Writes the short-key index, and says where it lies. -/
def writeShortKeys : EStateM Error SegmentWriter Pointer := do
  let w ← get
  let some draft := w.shortKeys | throw (.state (.noShortKeys w.id.toNat))
  set { w with shortKeys := none }
  match ShortKeyDraft.finalize w.numRows draft with
  | .error e _ => throw e
  | .ok slices _ =>
    let offset := (w.output.map OutputFile.size).getD 0
    write slices.header
    write slices.keys
    write slices.offsets
    let length := slices.header.length + slices.keys.length + slices.offsets.length
    match Pointer.new offset length with
    | .ok pointer => return pointer
    | .error e => throw e

def writeFooter (shortKeys : Pointer) : EStateM Error SegmentWriter Unit := do
  let w ← get
  let footer : Footer :=
    { numRows := UInt64.ofNat w.numRows
      columns := w.columns.map (·.entry)
      shortKeys := some shortKeys }
  let bytes := footer.encode
  if 2 ^ 32 ≤ bytes.length then throw (.footerSize bytes.length)
  write bytes
  write (Footer.trailer bytes)

/-- Writes all parts of the file, and gives its size. Whatever comes of it, the writer is of no use
afterwards. -/
def finalize : EStateM Error SegmentWriter Nat := do
  require "finalize" Stage.isOpen
  modify fun w => { w with stage := .finalized }
  let w ← get
  let some file := w.output | throw (.state (.noOutput w.id.toNat))
  match writeColumns (w.columns, file) with
  | .error e (columns, file) =>
    set { w with columns, output := some file }
    throw e
  | .ok _ (columns, file) =>
    set { w with columns, output := some file }
    let shortKeys ← writeShortKeys
    writeFooter shortKeys
    modify fun w => { w with output := w.output.map OutputFile.sync }
    return ((← get).output.map OutputFile.size).getD 0

end SegmentWriter

end Columnar
