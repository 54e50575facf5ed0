import Columnar.Inspect.Command
import Columnar.Inspect.Report
import Columnar.Lz4.Matcher
import Columnar.Segment.RowScan

/-! What the commands print. A command reads one file; the lines that it printed before it failed
stand. -/

namespace Columnar.Inspect

-- Programs write their pages with this compressor.
attribute [instance] Lz4.matcher

/-- Why a command stopped: what it was about, and the error behind that. -/
structure Failure where
  context : String
  cause : Option Error := none

namespace Failure

/-- The errors behind an error, the outermost first. -/
def chain : Error → List String
  | .file fault => [(Error.file fault).message, fault.message]
  | e => [e.message]

def indent : String := "    "

/-- Several causes are numbered. -/
def message (f : Failure) : String :=
  let causes := match (f.cause.map chain).getD [] with
    | [] => ""
    | [c] => "\n\nCaused by:\n" ++ indent ++ c
    | cs =>
      "\n\nCaused by:\n" ++ "\n".intercalate
        (cs.zipIdx.map fun (c, i) => indent ++ toString i ++ ": " ++ c)
  "Error: " ++ f.context ++ causes ++ "\n"

end Failure

structure Outcome where
  exit : UInt8
  stdout : String
  stderr : String

/-- A command at work: it prints lines, which are kept last first, and may fail. -/
abbrev Work := EStateM Failure (List String)

def print (line : String) : Work Unit := modify (line :: ·)

def attempt {α : Type} (context : String) : Except Error α → Work α
  | .ok a => pure a
  | .error e => throw { context, cause := some e }

/-- Opens the segment in a file. -/
def openSegment (path : String) (file : Except Error File) : Work Segment :=
  attempt ("Failed to open segment " ++ path) (file >>= Segment.open)

def inspect (path : String) (json : Bool) (file : Except Error File) : Work Unit := do
  let s ← openSegment path file
  let report ← attempt "Failed to read short key index" (Report.ofSegment s)
  if json then print report.toJson.pretty else report.lines.forM print

/-- The lines of consecutive rows, from `ordinal` on. -/
def printRows (ordinal : Nat) : List Cell → Work Unit
  | [] => fun lines => .ok () lines
  | c :: cs => fun lines =>
    printRows (ordinal + 1) cs
      ((toString ordinal ++ "\t" ++ (c.map Value.text).getD "NULL") :: lines)

/-- The most rows that are printed or checked at once. -/
def dumpBatch : Nat := 1024

def verifyBatch : Nat := 4096

/-- Prints rows until `remaining` are printed or the column ends. -/
def dumpRows (column remaining : Nat) (scan : Scan) (lines : List String) :
    EStateM.Result Failure (List String) Unit :=
  if _more : 0 < remaining then
    match Scan.next (min remaining dumpBatch) (scan, #[]) with
    | .error e _ =>
      let ordinal := scan.ordinal
      .error ⟨s!"Failed to read column {column} at ordinal {ordinal}", some e⟩ lines
    | .ok .endOfData _ => .ok () lines
    | .ok (.read n) (next, cells) =>
      match printRows scan.ordinal cells.toList lines with
      | .error f lines => .error f lines
      | .ok _ lines =>
        if _read : 0 < n then dumpRows column (remaining - n) next lines else .ok () lines
  else .ok () lines
termination_by remaining

def dump (path : String) (column first limit : Nat) (verify : Bool) (file : Except Error File) :
    Work Unit := do
  let s ← openSegment path file
  let c ← attempt s!"Failed to open column {column}"
    (s.column column { verifyChecksums := verify })
  match Scan.seek first c.scan with
  | .error e _ => throw ⟨s!"Failed to seek column {column} to ordinal {first}", some e⟩
  | .ok _ scan => dumpRows column limit scan

/-- Reads a column to its end, of which `left` rows are to come, and counts the rows. -/
def countRows (column left rows : Nat) (scan : Scan) : Except Failure Nat :=
  match Scan.next verifyBatch (scan, #[]) with
  | .error e _ => .error ⟨s!"Column {column} is corrupt near ordinal {rows}", some e⟩
  | .ok .endOfData _ => .ok rows
  | .ok (.read n) (next, _) =>
    if _read : 0 < n ∧ n ≤ left then countRows column (left - n) (rows + n) next
    else .ok (rows + n)
termination_by left

def verifyColumn (s : Segment) (column : Nat) : Work Unit := do
  let c ← attempt s!"Column {column} metadata is corrupt" (s.column column {})
  let rows ← match countRows column c.numRows 0 c.scan with
    | .ok rows => pure rows
    | .error f => throw f
  let held := s.numRows
  if rows ≠ held then
    throw ⟨s!"Column {column} produced {rows} rows, segment holds {held}", none⟩
  let (id, pages) := (Report.right 3 (toString column), c.numPages)
  print s!"column {id}: {rows} rows in {pages} pages OK"

def verify (path : String) (file : Except Error File) : Work Unit := do
  let s ← openSegment path file
  let _ ← attempt "Short key index is corrupt" s.shortKeys
  (List.range s.numColumns).forM (verifyColumn s)
  print (path ++ ": OK")

/-- The lines as they are printed, from those that are kept last first. -/
def printed (lines : List String) : String :=
  lines.reverse.foldl (fun text line => text ++ line ++ "\n") ""

namespace Command

def path : Command → String
  | inspect path _ | dump path _ _ _ _ | verify path => path

def work (file : Except Error File) : Command → Work Unit
  | inspect path json => Inspect.inspect path json file
  | dump path column first limit checked => Inspect.dump path column first limit checked file
  | verify path => Inspect.verify path file

/-- What a command does with its file. -/
def run (c : Command) (file : Except Error File) : Outcome :=
  match c.work file [] with
  | .ok _ lines => ⟨0, printed lines, ""⟩
  | .error f lines => ⟨1, printed lines, f.message⟩

end Command

/-- The outcome of arguments that spell no command. -/
def usage : Outcome :=
  ⟨2, "", "Usage: columnar <inspect|dump|verify> <FILE>\n"⟩

end Columnar.Inspect
