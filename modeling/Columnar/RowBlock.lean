import Columnar.Value
import Columnar.Error

/-! Blocks of rows, stored by columns. Columns may come to differ in length while a block is being
filled; the first one says how many rows there are. -/

namespace Columnar

structure RowBlock where
  columns : List (List Cell)

namespace RowBlock

def empty (numColumns : Nat) : RowBlock := ⟨List.replicate numColumns []⟩

def numColumns (b : RowBlock) : Nat := b.columns.length

def numRows (b : RowBlock) : Nat := (b.columns.head?.map List.length).getD 0

/-- A block of columns that are all as long as the first. -/
def ofColumns (columns : List (List Cell)) : Except Error RowBlock :=
  let rows := (⟨columns⟩ : RowBlock).numRows
  match columns.findIdx? (·.length ≠ rows) with
  | some bad =>
    .error (.argument (.blockRows bad (columns[bad]?.getD []).length rows))
  | none => .ok ⟨columns⟩

/-- The cell of a column, if there is one in that place. -/
def cell? (b : RowBlock) (column row : Nat) : Option Cell := b.columns[column]? >>= (·[row]?)

/-- The row across all columns; a column without a cell there counts as null. -/
def row? (b : RowBlock) (index : Nat) : Option Row :=
  if index < b.numRows then some (b.columns.map fun cells => cells[index]?.join) else none

/-- The rows that columns make, as many as asked for. -/
def transpose : Nat → List (List Cell) → List Row → List Row
  | 0, _, done => done.reverse
  | n + 1, columns, done =>
    transpose n (columns.map List.tail) (columns.map (·.head?.join) :: done)

def rows (b : RowBlock) : List Row := transpose b.numRows b.columns []

/-- The block with one column changed, if it is there. -/
def modify? (b : RowBlock) (column : Nat) (f : List Cell → List Cell) : Option RowBlock :=
  if column < b.columns.length then some ⟨b.columns.modify column f⟩ else none

def cellEq : Cell → Cell → Bool
  | none, none => true
  | some v, some w => v.numericEq w
  | _, _ => false

/-- Equality of the values as numbers. -/
def numericEq (a b : RowBlock) : Bool :=
  a.columns.length = b.columns.length &&
    (a.columns.zip b.columns).all fun (xs, ys) =>
      xs.length = ys.length && (xs.zip ys).all fun (x, y) => cellEq x y

end RowBlock

end Columnar
