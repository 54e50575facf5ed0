import Columnar.Value

/-! Keys: byte strings that compare as the values they stand for. -/

namespace Columnar.SortKey

/-- A signed number as its distance from the least one. -/
def biased {w : Nat} (n : BitVec w) : Nat := (n.toInt + 2 ^ (w - 1)).toNat

/-- Writes each zero byte as 0, 255, so that a closing pair of zeros sorts before all that a string
can go on with. -/
def escape (bs : Bytes) : Bytes := bs.flatMap fun b => if b = 0 then [0, 255] else [b]

/-- At most `limit` bytes; 0 keeps all. -/
def cut (limit : Nat) (bs : Bytes) : Bytes := if limit = 0 then bs else bs.take limit

/-- The key of a value, of which a string counts with `limit` bytes. -/
def encode (limit : Nat) : Value → Bytes
  | .bool b => [if b then 1 else 0]
  | .int8 n => Bytes.big 1 (biased n)
  | .int16 n => Bytes.big 2 (biased n)
  | .int32 n => Bytes.big 4 (biased n)
  | .int64 n => Bytes.big 8 (biased n)
  | .int128 n => Bytes.big 16 (biased n)
  | .float32 bits => Bytes.big 4 (Ieee.orderKey bits)
  | .float64 bits => Bytes.big 8 (Ieee.orderKey bits)
  | .date days => Bytes.big 4 days.toNat
  | .datetime packed => Bytes.big 8 packed.toNat
  | .decimal d => Bytes.big 8 (biased d.integer) ++ Bytes.big 4 (biased d.fraction)
  | .bytes bs => escape (cut limit bs) ++ [0, 0]

/-- Goes in front of a cell, so that an absent value sorts first. -/
def marker (isNull : Bool) : UInt8 := if isNull then 1 else 2

def encodeCell (limit : Nat) : Cell → Bytes
  | none => [marker true]
  | some v => marker false :: encode limit v

/-! ## Written behind other keys -/

def escapeTo (gathered : ByteArray) : Bytes → ByteArray
  | [] => gathered
  | b :: bs =>
    escapeTo (if b = 0 then (gathered.push 0).push 255 else gathered.push b) bs

def encodeTo (gathered : ByteArray) (limit : Nat) : Value → ByteArray
  | .bytes bs => ((escapeTo gathered (cut limit bs)).push 0).push 0
  | v => (encode limit v).appendTo gathered

def encodeCellTo (gathered : ByteArray) (limit : Nat) : Cell → ByteArray
  | none => gathered.push (marker true)
  | some v => encodeTo (gathered.push (marker false)) limit v

theorem escapeTo_eq (gathered : ByteArray) (bs : Bytes) :
    escapeTo gathered bs = (escape bs).appendTo gathered := by
  induction bs generalizing gathered with
  | nil => rfl
  | cons b bs ih =>
    have hcons : escape (b :: bs) = (if b = 0 then [0, 255] else [b]) ++ escape bs :=
      List.flatMap_cons
    rw [escapeTo, ih, hcons, Bytes.append_appendTo]
    split <;> rfl

theorem encodeTo_eq (gathered : ByteArray) (limit : Nat) (v : Value) :
    encodeTo gathered limit v = (encode limit v).appendTo gathered := by
  cases v with
  | bytes bs => rw [encodeTo, escapeTo_eq, encode, Bytes.append_appendTo]; rfl
  | _ => rfl

theorem encodeCellTo_eq (gathered : ByteArray) (limit : Nat) (c : Cell) :
    encodeCellTo gathered limit c = (encodeCell limit c).appendTo gathered := by
  cases c with
  | none => rfl
  | some v => exact encodeTo_eq _ limit v

end Columnar.SortKey
