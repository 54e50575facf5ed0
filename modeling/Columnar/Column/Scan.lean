import Columnar.Column

/-! Scanning a column. A scan stands at an ordinal and keeps the page that it decoded last. -/

namespace Columnar

inductive BatchStatus
  /-- So many rows were read, at least one. -/
  | read (count : Nat)
  | endOfData
  deriving DecidableEq

structure CachedPage where
  index : Nat
  first : Nat
  cells : Array Cell

namespace CachedPage

def contains (p : CachedPage) (ordinal : Nat) : Bool :=
  p.first ≤ ordinal && ordinal < p.first + p.cells.size

/-- At most `limit` cells from an ordinal on. -/
def cellsFrom (p : CachedPage) (ordinal limit : Nat) : Array Cell :=
  p.cells.extract (ordinal - p.first) (ordinal - p.first + limit)

end CachedPage

structure Scan where
  column : Column
  /-- The ordinal of the next row. -/
  ordinal : Nat := 0
  cached : Option CachedPage := none

namespace Scan

/-- Reads the page with an ordinal. The page kept before is given up first. -/
def reload (ordinal : Nat) : EStateM Error Scan CachedPage := fun s =>
  let index := s.column.index.findPage ordinal
  match s.column.readPage index with
  | .ok cells =>
    let page := ⟨index, (s.column.index.first? index).getD 0, cells.toArray⟩
    .ok page { s with cached := some page }
  | .error e => .error e { s with cached := none }

/-- The page with an ordinal, which is read unless it is the one that is kept. -/
def load (ordinal : Nat) : EStateM Error Scan CachedPage := fun s =>
  match s.cached with
  | some page => if page.contains ordinal then .ok page s else reload ordinal s
  | none => reload ordinal s

def seekFirst (s : Scan) : Scan := { s with ordinal := 0, cached := none }

/-- Goes to an ordinal; the number of rows stands for the end. -/
def seek (ordinal : Nat) : EStateM Error Scan Unit := do
  let rows := (← get).column.numRows
  if rows < ordinal then throw (.argument (.seek ordinal rows))
  modify ({ · with ordinal })
  if ordinal < rows then let _ ← load ordinal

/-- Reads on until `want` cells more are in the output. -/
def fill (want : Nat) (s : Scan) (output : Array Cell) :
    EStateM.Result Error (Scan × Array Cell) Unit :=
  if want = 0 then .ok () (s, output)
  else match load s.ordinal s with
    | .error e s => .error e (s, output)
    | .ok page s =>
      let cells := page.cellsFrom s.ordinal want
      if _more : 0 < cells.size then
        fill (want - cells.size) { s with ordinal := s.ordinal + cells.size } (output ++ cells)
      else .ok () (s, output)
termination_by want
decreasing_by
  have : 0 < (page.cellsFrom s.ordinal want).size := _more
  omega

/-- Reads at most `limit` cells into the output, which is emptied first. What was read before a
failure stays in it, and the scan stands behind that. -/
def next (limit : Nat) : EStateM Error (Scan × Array Cell) BatchStatus := fun (s, _) =>
  if limit = 0 then .error (.argument .emptyBatch) (s, #[])
  else
    match fill (min limit (s.column.numRows - s.ordinal)) s #[] with
    | .error e state => .error e state
    | .ok _ (s, output) =>
      .ok (if output.isEmpty then .endOfData else .read output.size) (s, output)

/-- Reads on, batch after batch, while rows are `left`. -/
def readOn (limit left : Nat) (counts : List Nat) (cells : Array Cell) (s : Scan) :
    EStateM.Result Error (Scan × Array Cell) (List Nat × Array Cell) :=
  match next limit (s, #[]) with
  | .error e state => .error e state
  | .ok .endOfData state => .ok (counts.reverse, cells) state
  | .ok (.read n) (s, batch) =>
    if _more : 0 < n ∧ n ≤ left then readOn limit (left - n) (n :: counts) (cells ++ batch) s
    else .ok (counts.reverse, cells) (s, batch)
termination_by left

/-- Reads all that is left in batches of at most `limit` cells: how many cells each batch had, and
the cells. The output is that of the last batch. -/
def readAll (limit : Nat) : EStateM Error (Scan × Array Cell) (List Nat × Array Cell) :=
  fun (s, _) => readOn limit (s.column.numRows - s.ordinal) [] #[] s

end Scan

/-- A scan at the first row. -/
def Column.scan (c : Column) : Scan := { column := c }

end Columnar
