import Columnar.Bisect
import Columnar.Page.Pointer

/-! Ordinal indexes: for each page of a column, the ordinal of its first row and where it lies. -/

namespace Columnar

structure PageEntry where
  firstOrdinal : UInt64
  pointer : Pointer
  deriving DecidableEq

namespace PageEntry

def encode (e : PageEntry) : Bytes :=
  Bytes.little 8 e.firstOrdinal.toNat ++ Bytes.little 8 e.pointer.offset.toNat
    ++ Bytes.little 4 e.pointer.size.toNat

/-- The length of an entry. -/
def size : Nat := 20

@[simp] theorem length_encode (e : PageEntry) : e.encode.length = size := by simp [encode, size]

def decode : Decoder PageEntry := do
  let firstOrdinal ← Decoder.word64 "ordinal"
  let offset ← Decoder.word64 "page offset"
  let size ← Decoder.word32 "page size"
  return ⟨firstOrdinal, ⟨offset, size⟩⟩

end PageEntry

structure OrdinalIndex where
  entries : Array PageEntry
  numRows : Nat

namespace OrdinalIndex

/-- A count, and the entries. -/
def encode (entries : List PageEntry) : Bytes :=
  Bytes.little 4 entries.length ++ entries.flatMap PageEntry.encode

/-- The length of `encode`. -/
def encodedSize (numEntries : Nat) : Nat := 4 + numEntries * PageEntry.size

/-- The first entry out of order, with its position. Ordinals begin at 0, grow from page to page,
and are those of rows. -/
def misplaced? (numRows : Nat) :
    (position next : Nat) → List PageEntry → Option (Nat × PageEntry)
  | _, _, [] => none
  | position, next, e :: es =>
    let first := e.firstOrdinal.toNat
    if (if position = 0 then first = 0 else next ≤ first) ∧ first < numRows then
      misplaced? numRows (position + 1) (first + 1) es
    else some (position, e)

/-- The index of a column of `numRows` rows. -/
def decode (numRows : Nat) : Decoder OrdinalIndex := do
  let count ← Decoder.word 4 "ordinal index count"
  let left ← Decoder.remaining
  if left ≠ count * PageEntry.size then Decoder.fail (.ordinalIndexSize count left)
  let entries ← Decoder.times count PageEntry.decode
  if let some (position, e) := misplaced? numRows 0 0 entries then
    Decoder.fail (.ordinalIndexEntry position e.firstOrdinal.toNat numRows)
  if entries.isEmpty ≠ (numRows == 0) then
    Decoder.fail (.ordinalIndexCount entries.length numRows)
  return ⟨entries.toArray, numRows⟩

def parse (data : Bytes) (numRows : Nat) : Except Error OrdinalIndex :=
  match decode numRows data with
  | .ok index _ => .ok index
  | .error e _ => .error e

def numPages (x : OrdinalIndex) : Nat := x.entries.size

def first? (x : OrdinalIndex) (page : Nat) : Option Nat :=
  x.entries[page]?.map (·.firstOrdinal.toNat)

/-- The rows of a page: from the first up to, and without, the last number. -/
def range? (x : OrdinalIndex) (page : Nat) : Option (Nat × Nat) :=
  (x.first? page).map fun first => (first, (x.first? (page + 1)).getD x.numRows)

/-- The last page that begins at or before a row. -/
def findPage (x : OrdinalIndex) (ordinal : Nat) : Nat :=
  bisect (fun page => (x.first? page).any (· ≤ ordinal)) 0 x.numPages - 1

end OrdinalIndex

end Columnar
