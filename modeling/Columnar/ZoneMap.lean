import Columnar.Field

/-! Zone maps: the least and the greatest value of a run of cells, and whether there are nulls. -/

namespace Columnar

structure ZoneMap where
  /-- The least and the greatest value, unless all cells are null. -/
  bounds : Option (Value × Value) := none
  hasNull : Bool := false
  deriving DecidableEq

namespace ZoneMap

def min? (z : ZoneMap) : Option Value := z.bounds.map (·.1)

def max? (z : ZoneMap) : Option Value := z.bounds.map (·.2)

def hasNotNull (z : ZoneMap) : Bool := z.bounds.isSome

def isEmpty (z : ZoneMap) : Bool := !z.hasNull && z.bounds.isNone

/-- The zone map with one more cell. -/
def update (z : ZoneMap) : Cell → ZoneMap
  | none => { z with hasNull := true }
  | some v =>
    match z.bounds with
    | none => { z with bounds := some (v, v) }
    | some (least, greatest) =>
      let least' := if v.cmp least = .lt then v else least
      let greatest' := if v.cmp greatest = .gt then v else greatest
      { z with bounds := some (least', greatest') }

def ofCells (cells : List Cell) : ZoneMap := cells.foldl update {}

/-- The zone map of both runs. -/
def merge (z other : ZoneMap) : ZoneMap :=
  let z := { z with hasNull := z.hasNull || other.hasNull }
  match other.bounds with
  | none => z
  | some (least, greatest) => (z.update (some least)).update (some greatest)

/-- Whether a value lies between the bounds. If not, no cell has it. -/
def mayContain (z : ZoneMap) (v : Value) : Bool :=
  match z.bounds with
  | none => false
  | some (least, greatest) => v.cmp least ≠ .lt && v.cmp greatest ≠ .gt

/-! ## Cutting string bounds -/

/-- The least string behind all that begin with `bs`: the last byte that can be raised is raised,
and what follows it goes. -/
def successor? : Bytes → Option Bytes
  | [] => none
  | b :: bs =>
    match successor? bs with
    | some s => some (b :: s)
    | none => if b = 255 then none else some [b + 1]

def cutLeast (limit : Nat) : Value → Value
  | .bytes bs => .bytes (bs.take limit)
  | v => v

/-- A bound that stays above is either the successor of the cut string or the whole one. -/
def cutGreatest (limit : Nat) : Value → Value
  | .bytes bs =>
    if bs.length ≤ limit then .bytes bs else .bytes ((successor? (bs.take limit)).getD bs)
  | v => v

/-- The zone map with string bounds of at most `limit` bytes, where they can be had. -/
def truncated (z : ZoneMap) (limit : Nat) : ZoneMap :=
  { z with bounds := z.bounds.map fun (least, greatest) =>
      (cutLeast limit least, cutGreatest limit greatest) }

/-! ## Stored form -/

def flags (z : ZoneMap) : UInt8 :=
  (if z.hasNull then 1 else 0) + (if z.bounds.isSome then 2 else 0)

def encode (z : ZoneMap) : Bytes :=
  z.flags :: match z.bounds with
    | none => []
    | some (least, greatest) => least.encode ++ greatest.encode

def decode (f : Field) : Decoder ZoneMap := do
  let flags ← Decoder.byte "zone map flags"
  if 3 < flags then Decoder.fail (.zoneMapFlags flags)
  let hasNull := flags.toNat % 2 = 1
  if 2 ≤ flags then
    let least ← f.decode
    let greatest ← f.decode
    if least.cmp greatest = .gt then Decoder.fail .zoneMapBounds
    return { bounds := some (least, greatest), hasNull }
  else return { hasNull }

/-- A zone map behind its length. -/
def encodeRecord (z : ZoneMap) : Bytes := Varint.encode z.encode.length ++ z.encode

def decodeRecord (f : Field) : Decoder ZoneMap := do
  let length ← Varint.decode
  let record ← Decoder.take length "zone map record"
  match decode f record with
  | .ok z [] => return z
  | .ok _ (_ :: _) => Decoder.fail .zoneMapTail
  | .error e _ => throw e

/-! ## The zone maps of all pages of a column -/

/-- A count, and the records. -/
def decodeStream (f : Field) : Decoder (List ZoneMap) := do
  let count ← Decoder.word 4 "zone map count"
  let left ← Decoder.remaining
  if left / 2 < count then Decoder.fail (.zoneMapRecords count left)
  let maps ← Decoder.times count (decodeRecord f)
  unless (← Decoder.remaining) = 0 do Decoder.fail .zoneMapStreamTail
  return maps

end ZoneMap

/-- Gathers the zone maps of a column that is being written. -/
structure ZoneMapDraft where
  maxLength : Nat
  /-- Of the page that is not closed yet. -/
  page : ZoneMap := {}
  /-- Of all cells so far. -/
  all : ZoneMap := {}
  /-- One for each page that is closed. -/
  records : Array Bytes := #[]

namespace ZoneMapDraft

def add (d : ZoneMapDraft) (c : Cell) : ZoneMapDraft :=
  { d with page := d.page.update c, all := d.all.update c }

/-- Closes the page. -/
def flush (d : ZoneMapDraft) : ZoneMapDraft :=
  { d with page := {}, records := d.records.push (d.page.truncated d.maxLength).encodeRecord }

def segment (d : ZoneMapDraft) : ZoneMap := d.all.truncated d.maxLength

def numPages (d : ZoneMapDraft) : Nat := d.records.size

/-- The length of `encode`. -/
def size (d : ZoneMapDraft) : Nat := d.records.foldl (fun size r => size + r.length) 4

def encode (d : ZoneMapDraft) : Bytes := Bytes.little 4 d.numPages ++ d.records.toList.flatten

end ZoneMapDraft

end Columnar
