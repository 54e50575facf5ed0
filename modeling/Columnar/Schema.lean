import Columnar.Field
import Columnar.SortKey

/-! Schemas: the columns of a segment in order, keys first. -/

namespace Columnar

structure ColumnSchema where
  /-- Stays with the column when it is renamed. -/
  uniqueId : UInt32
  name : String
  type : FieldType
  /-- The most bytes of a string; 0 means any number. -/
  length : UInt32 := 0
  /-- The bytes of a string that count in a short key; 0 means all. -/
  indexLength : UInt32 := 20
  isKey : Bool := false
  isNullable : Bool := true
  deriving DecidableEq

namespace ColumnSchema

def field (c : ColumnSchema) : Field := ⟨c.type, c.length⟩

end ColumnSchema

/-- The first item that stands in the list before. -/
def firstRepeated? {α : Type} [DecidableEq α] (seen : List α) : List α → Option α
  | [] => none
  | x :: xs => if x ∈ seen then some x else firstRepeated? (x :: seen) xs

theorem firstRepeated?_eq_none {α : Type} [DecidableEq α] {seen xs : List α} :
    firstRepeated? seen xs = none ↔ xs.Nodup ∧ ∀ x ∈ xs, x ∉ seen := by
  induction xs generalizing seen with
  | nil => simp [firstRepeated?]
  | cons x xs ih =>
    by_cases h : x ∈ seen
    · simp [firstRepeated?, h]
    · simp only [firstRepeated?, h, if_false, ih, List.nodup_cons, List.mem_cons, not_or]
      constructor
      · rintro ⟨hn, hs⟩
        refine ⟨⟨fun hx => (hs x hx).1 rfl, hn⟩, ?_⟩
        rintro y (rfl | hy)
        · exact h
        · exact (hs y hy).2
      · rintro ⟨⟨hx, hn⟩, hs⟩
        exact ⟨hn, fun y hy => ⟨fun e => hx (e ▸ hy), hs y (.inr hy)⟩⟩

/-- The columns of a segment. Keys come before other columns, and the short key is made of the
first `shortKeys` of them. -/
structure Schema where
  columns : List ColumnSchema
  shortKeys : Nat
  nonempty : columns ≠ []
  distinct : (columns.map (·.uniqueId)).Nodup
  keysFirst : ∀ c ∈ columns.dropWhile ColumnSchema.isKey, c.isKey = false
  shortKeys_le : shortKeys ≤ (columns.takeWhile ColumnSchema.isKey).length
  deriving DecidableEq

namespace Schema

def new (columns : List ColumnSchema) (shortKeys : Nat) : Except Error Schema :=
  if nonempty : columns = [] then .error (.argument .noColumns)
  else match distinct : firstRepeated? [] (columns.map (·.uniqueId)) with
  | some id => .error (.argument (.duplicateId id.toNat))
  | none =>
    if keysFirst : ∀ c ∈ columns.dropWhile ColumnSchema.isKey, c.isKey = false then
      let keys := (columns.takeWhile ColumnSchema.isKey).length
      if shortKeys_le : shortKeys ≤ keys then
        .ok { columns, shortKeys, nonempty, distinct := (firstRepeated?_eq_none.1 distinct).1,
              keysFirst, shortKeys_le }
      else .error (.argument (.shortKeyColumns shortKeys keys))
    else .error (.argument .keyAfterValue)

def numColumns (s : Schema) : Nat := s.columns.length

def numKeyColumns (s : Schema) : Nat := (s.columns.filter ColumnSchema.isKey).length

/-- The key that columns make of the cells of a row; a cell that is not there counts as null. -/
def keyOf : List ColumnSchema → Row → Bytes
  | [], _ => []
  | c :: cs, row =>
    SortKey.encodeCell c.indexLength.toNat row.head?.join ++ keyOf cs row.tail

/-- The short key of a row. Keys compare bytewise as the rows do by their short-key cells. -/
def shortKey (s : Schema) (row : Row) : Bytes := keyOf (s.columns.take s.shortKeys) row

def writeKeyOf (gathered : ByteArray) : List ColumnSchema → Row → ByteArray
  | [], _ => gathered
  | c :: cs, row =>
    writeKeyOf (SortKey.encodeCellTo gathered c.indexLength.toNat row.head?.join) cs row.tail

/-- Writes the short key of a row behind other keys. -/
def writeShortKey (s : Schema) (row : Row) (gathered : ByteArray) : ByteArray :=
  writeKeyOf gathered (s.columns.take s.shortKeys) row

theorem writeKeyOf_eq (gathered : ByteArray) (cs : List ColumnSchema) (row : Row) :
    writeKeyOf gathered cs row = (keyOf cs row).appendTo gathered := by
  induction cs generalizing gathered row with
  | nil => rfl
  | cons c cs ih => rw [writeKeyOf, ih, SortKey.encodeCellTo_eq, keyOf, Bytes.append_appendTo]

theorem writeShortKey_eq (s : Schema) (row : Row) (gathered : ByteArray) :
    s.writeShortKey row gathered = (s.shortKey row).appendTo gathered :=
  writeKeyOf_eq gathered _ row

end Schema

end Columnar
