import Columnar.Bytes
import Columnar.FieldType
import Columnar.Ieee.Shortest
import Columnar.Text.Utf8

/-! Values, the cells that hold them, and their text. Signed numbers are two's-complement words,
floating-point numbers their bits. -/

namespace Columnar

/-- A whole part and a billionth part, normally of one sign. -/
structure Decimal where
  integer : BitVec 64
  fraction : BitVec 32
  deriving DecidableEq

namespace Decimal

def isNegative (d : Decimal) : Bool := d.integer.msb || d.fraction.msb

/-- Whole part, point, and the billionths with nine digits. -/
def text (d : Decimal) : String :=
  let digits := Nat.toDigits 10 d.fraction.toInt.natAbs
  String.ofList <|
    (if d.isNegative then ['-'] else []) ++ Nat.toDigits 10 d.integer.toInt.natAbs ++ '.'
      :: (List.replicate (9 - digits.length) '0' ++ digits)

/-- By the whole parts, then by the billionths. -/
def cmp (a b : Decimal) : Ordering :=
  (compare a.integer.toInt b.integer.toInt).then (compare a.fraction.toInt b.fraction.toInt)

end Decimal

inductive Value
  | bool (b : Bool)
  | int8 (n : BitVec 8)
  | int16 (n : BitVec 16)
  | int32 (n : BitVec 32)
  | int64 (n : BitVec 64)
  | int128 (n : BitVec 128)
  | float32 (bits : BitVec 32)
  | float64 (bits : BitVec 64)
  /-- Days, from 0. -/
  | date (days : BitVec 32)
  /-- The decimal digits of year, month, day, hour, minute and second in a row. -/
  | datetime (packed : BitVec 64)
  | decimal (d : Decimal)
  | bytes (bs : Bytes)
  deriving DecidableEq

/-- A value, or nothing. -/
abbrev Cell := Option Value

/-- One cell for each column. -/
abbrev Row := List Cell

namespace Value

def kind : Value → Kind
  | bool _ => .bool
  | int8 _ => .int8
  | int16 _ => .int16
  | int32 _ => .int32
  | int64 _ => .int64
  | int128 _ => .int128
  | float32 _ => .float32
  | float64 _ => .float64
  | date _ => .date
  | datetime _ => .datetime
  | decimal _ => .decimal
  | bytes _ => .bytes

def bytes? : Value → Option Bytes
  | bytes bs => some bs
  | _ => none

/-- The signed 64-bit image of an integer-like value. A DATETIME is the word with its bits. -/
def image? : Value → Option (BitVec 64)
  | bool b => some (if b then 1 else 0)
  | int8 n => some (n.signExtend 64)
  | int16 n => some (n.signExtend 64)
  | int32 n => some (n.signExtend 64)
  | int64 n => some n
  | date days => some (days.setWidth 64)
  | datetime packed => some packed
  | int128 _ | float32 _ | float64 _ | decimal _ | bytes _ => none

/-- Whether an image is that of a signed number of `w` bits. -/
@[inline] def isSigned (w : Nat) (image : BitVec 64) : Bool :=
  image.toNat < 2 ^ (w - 1) || 2 ^ 64 - 2 ^ (w - 1) ≤ image.toNat

/-- The value of a type that has an image, if there is one. -/
def ofImage? : FieldType → BitVec 64 → Option Value
  | .bool, image =>
    if image = 0 then some (bool false) else if image = 1 then some (bool true) else none
  | .tinyint, image => if isSigned 8 image then some (int8 (image.setWidth 8)) else none
  | .smallint, image => if isSigned 16 image then some (int16 (image.setWidth 16)) else none
  | .int, image => if isSigned 32 image then some (int32 (image.setWidth 32)) else none
  | .bigint, image => some (int64 image)
  | .date, image => if image.toNat < 2 ^ 32 then some (date (image.setWidth 32)) else none
  | .datetime, image => some (datetime image)
  | .largeint, _ | .float, _ | .double, _ | .decimal, _ | .char, _ | .varchar, _ => none

def text : Value → String
  | bool b => if b then "true" else "false"
  | int8 n => toString n.toInt
  | int16 n => toString n.toInt
  | int32 n => toString n.toInt
  | int64 n => toString n.toInt
  | int128 n => toString n.toInt
  | float32 bits => Ieee.single.text bits.toNat
  | float64 bits => Ieee.double.text bits.toNat
  | date days => toString days.toNat
  | datetime packed => toString packed.toNat
  | decimal d => d.text
  | bytes bs => Text.Utf8.decode bs

/-- Equality as numbers: zeros of both signs are equal, and NaN equals nothing. -/
def numericEq : Value → Value → Bool
  | float32 a, float32 b => Ieee.single.eq a.toNat b.toNat
  | float64 a, float64 b => Ieee.double.eq a.toNat b.toNat
  | a, b => a = b

/-- The order of values of one kind; values of different kinds come in the order of the kinds. -/
def cmp : Value → Value → Ordering
  | bool a, bool b => compare a.toNat b.toNat
  | int8 a, int8 b => compare a.toInt b.toInt
  | int16 a, int16 b => compare a.toInt b.toInt
  | int32 a, int32 b => compare a.toInt b.toInt
  | int64 a, int64 b => compare a.toInt b.toInt
  | int128 a, int128 b => compare a.toInt b.toInt
  | float32 a, float32 b => compare (Ieee.orderKey a) (Ieee.orderKey b)
  | float64 a, float64 b => compare (Ieee.orderKey a) (Ieee.orderKey b)
  | date a, date b => compare a.toNat b.toNat
  | datetime a, datetime b => compare a.toNat b.toNat
  | decimal a, decimal b => a.cmp b
  | bytes a, bytes b => compare a b
  | a, b => compare a.kind.rank b.kind.rank

end Value

end Columnar
