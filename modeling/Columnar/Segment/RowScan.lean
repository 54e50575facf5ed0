import Columnar.Column.Scan
import Columnar.RowBlock
import Columnar.Segment

/-! Scanning all columns of a segment side by side. -/

namespace Columnar

structure RowScan where
  columns : List Scan
  numRows : Nat
  /-- The ordinal of the next row. -/
  ordinal : Nat := 0

namespace RowScan

/-- Moves scans to an ordinal, one after the other, up to the first that fails. -/
def seekAll (ordinal : Nat) : EStateM Error (List Scan) Unit
  | [] => .ok () []
  | s :: ss =>
    match Scan.seek ordinal s with
    | .error e s => .error e (s :: ss)
    | .ok _ s =>
      match seekAll ordinal ss with
      | .ok _ ss => .ok () (s :: ss)
      | .error e ss => .error e (s :: ss)

def seek (ordinal : Nat) : EStateM Error RowScan Unit := fun r =>
  match seekAll ordinal r.columns with
  | .ok _ columns => .ok () { r with columns, ordinal }
  | .error e columns => .error e { r with columns }

/-- Reads a batch from each scan into a column of its own, up to the first that fails or that gives
another number of cells than those before it. `position` is that of the first scan. -/
def nextAll (limit position : Nat) (expected : Option Nat) :
    List Scan → EStateM.Result Error (List Scan × List (List Cell)) (Option Nat)
  | [] => .ok expected ([], [])
  | s :: ss =>
    let untouched := ss.map fun _ => []
    match Scan.next limit (s, #[]) with
    | .error e (s, cells) => .error e (s :: ss, cells.toList :: untouched)
    | .ok _ (s, cells) =>
      let count := cells.size
      if expected.any (· ≠ count) then
        .error (.corruption (.unevenColumns position count (expected.getD 0)))
          (s :: ss, cells.toList :: untouched)
      else
        match nextAll limit (position + 1) (some count) ss with
        | .ok produced (ss, columns) => .ok produced (s :: ss, cells.toList :: columns)
        | .error e (ss, columns) => .error e (s :: ss, cells.toList :: columns)

/-- Reads at most `limit` rows into the block, which is emptied first and gets one column for each
of the segment. -/
def next (limit : Nat) : EStateM Error (RowScan × RowBlock) BatchStatus := fun (r, _) =>
  let fresh := RowBlock.empty r.columns.length
  if limit = 0 then .error (.argument .emptyBatch) (r, fresh)
  else if r.numRows ≤ r.ordinal then .ok .endOfData (r, fresh)
  else
    match nextAll limit 0 none r.columns with
    | .error e (columns, cells) => .error e ({ r with columns }, ⟨cells⟩)
    | .ok produced (columns, cells) =>
      let count := produced.getD 0
      .ok (if count = 0 then .endOfData else .read count)
        ({ r with columns, ordinal := r.ordinal + count }, ⟨cells⟩)

/-- Reads on, batch after batch, while rows are `left`. A batch may have more rows than that: a seek
that failed leaves some columns behind the ordinal. -/
def readOn (limit left : Nat) (counts : List Nat) (columns : List (Array Cell)) (r : RowScan) :
    EStateM.Result Error (RowScan × RowBlock) (List Nat × List (Array Cell)) :=
  match next limit (r, RowBlock.empty 0) with
  | .error e state => .error e state
  | .ok .endOfData state => .ok (counts.reverse, columns) state
  | .ok (.read n) (r, batch) =>
    let more := batch.columns.map List.toArray
    let columns := if counts.isEmpty then more else columns.zipWith (· ++ ·) more
    if _more : 0 < n ∧ 0 < left then readOn limit (left - n) (n :: counts) columns r
    else .ok (counts.reverse, columns) (r, batch)
termination_by left

/-- Reads all that is left in batches of at most `limit` rows: how many rows each batch had, and the
columns, if there was any batch. The block is that of the last one. -/
def readAll (limit : Nat) : EStateM Error (RowScan × RowBlock) (List Nat × List (Array Cell)) :=
  fun (r, _) => readOn limit (r.numRows - r.ordinal) [] [] r

end RowScan

/-- A scan of all columns at the first row. -/
def Segment.rows (s : Segment) (options : ReadOptions) : Except Error RowScan := do
  let columns ← (List.range s.numColumns).mapM fun id => s.column id options
  return { columns := columns.map Column.scan, numRows := s.numRows }

end Columnar
