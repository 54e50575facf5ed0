/-! The types a column can have, and the kinds of value that they hold. -/

namespace Columnar

/-- What a value is made of. CHAR and VARCHAR columns both hold `bytes`. -/
inductive Kind
  | bool | int8 | int16 | int32 | int64 | int128 | float32 | float64
  | date | datetime | decimal | bytes
  deriving DecidableEq

namespace Kind

def name : Kind → String
  | bool => "bool"
  | int8 => "int8"
  | int16 => "int16"
  | int32 => "int32"
  | int64 => "int64"
  | int128 => "int128"
  | float32 => "float32"
  | float64 => "float64"
  | date => "date"
  | datetime => "datetime"
  | decimal => "decimal"
  | bytes => "bytes"

instance : ToString Kind := ⟨name⟩

/-- The place of a kind in the order of values of different kinds. -/
def rank : Kind → Nat
  | bool => 0
  | int8 => 1
  | int16 => 2
  | int32 => 3
  | int64 => 4
  | int128 => 5
  | float32 => 6
  | float64 => 7
  | date => 8
  | datetime => 9
  | decimal => 10
  | bytes => 11

end Kind

inductive FieldType
  | bool | tinyint | smallint | int | bigint | largeint | float | double
  | date | datetime | decimal | char | varchar
  deriving DecidableEq

namespace FieldType

def all : List FieldType :=
  [bool, tinyint, smallint, int, bigint, largeint, float, double, date, datetime, decimal, char,
    varchar]

/-- The byte that stands for the type in a file. -/
def id : FieldType → UInt8
  | bool => 1
  | tinyint => 2
  | smallint => 3
  | int => 4
  | bigint => 5
  | largeint => 6
  | float => 7
  | double => 8
  | date => 9
  | datetime => 10
  | decimal => 11
  | char => 12
  | varchar => 13

def ofId? (n : UInt8) : Option FieldType := all.find? (·.id = n)

/-- The name of the type in JSON documents. -/
def label : FieldType → String
  | bool => "bool"
  | tinyint => "tinyint"
  | smallint => "smallint"
  | int => "int"
  | bigint => "bigint"
  | largeint => "largeint"
  | float => "float"
  | double => "double"
  | date => "date"
  | datetime => "datetime"
  | decimal => "decimal"
  | char => "char"
  | varchar => "varchar"

def ofLabel? (s : String) : Option FieldType := all.find? (·.label = s)

/-- The name of the type in messages and tables. -/
def name : FieldType → String
  | bool => "BOOL"
  | tinyint => "TINYINT"
  | smallint => "SMALLINT"
  | int => "INT"
  | bigint => "BIGINT"
  | largeint => "LARGEINT"
  | float => "FLOAT"
  | double => "DOUBLE"
  | date => "DATE"
  | datetime => "DATETIME"
  | decimal => "DECIMAL"
  | char => "CHAR"
  | varchar => "VARCHAR"

instance : ToString FieldType := ⟨name⟩

def kind : FieldType → Kind
  | bool => .bool
  | tinyint => .int8
  | smallint => .int16
  | int => .int32
  | bigint => .int64
  | largeint => .int128
  | float => .float32
  | double => .float64
  | date => .date
  | datetime => .datetime
  | decimal => .decimal
  | char | varchar => .bytes

/-- The bytes one value takes in a page, unless that varies. -/
def fixedSize? : FieldType → Option Nat
  | bool | tinyint => some 1
  | smallint => some 2
  | int | float | date => some 4
  | bigint | double | datetime => some 8
  | decimal => some 12
  | largeint => some 16
  | char | varchar => none

def isString (t : FieldType) : Bool := t.kind = .bytes

/-- Types whose values have an image among the 64-bit integers. -/
def isIntegerLike : FieldType → Bool
  | bool | tinyint | smallint | int | bigint | date | datetime => true
  | largeint | float | double | decimal | char | varchar => false

theorem mem_all (t : FieldType) : t ∈ all := by cases t <;> decide

@[simp] theorem ofId?_id (t : FieldType) : ofId? t.id = some t := by cases t <;> rfl

theorem id_of_ofId? {n : UInt8} {t : FieldType} (h : ofId? n = some t) : t.id = n := by
  simpa using List.find?_some h

@[simp] theorem ofLabel?_label (t : FieldType) : ofLabel? t.label = some t := by
  cases t <;> decide

end FieldType

end Columnar
