import Std.Data.TreeMap
import Columnar.Field
import Columnar.Page.Bits

/-! The values of one page, none of them null, in each encoding. How many there are is not part of
the bytes. -/

namespace Columnar

/-- A result that does not depend on the bytes to come. -/
def Decoder.ofExcept {α : Type} : Except Error α → Decoder α
  | .ok a => pure a
  | .error e => throw e

namespace Page

/-! ## Distances from the least value -/

def image (f : Field) (v : Value) : Except Error Int :=
  match v.image? with
  | some image => .ok image.toInt
  | none => .error (.unsupported (.packedKind v.kind f.type))

/-- The least value, the width of a distance, and the distances. -/
def encodePacked (f : Field) (values : List Value) : Except Error Bytes := do
  let images ← values.mapM (image f)
  match images with
  | [] => return []
  | first :: rest =>
    let least := rest.foldl min first
    let width := bitWidth (rest.foldl max first - least).toNat
    return Bytes.little 8 (BitVec.ofInt 64 least).toNat ++ UInt8.ofNat width
      :: pack width (images.map fun n => (n - least).toNat)

def decodePacked (f : Field) (count : Nat) : Decoder (List Value) := do
  if count = 0 then return []
  let reference ← Decoder.word64 "frame reference"
  let width ← Decoder.byte "bit width"
  let distances ← takeBits width.toNat count
  Decoder.ofExcept <|
    distances.mapM fun d => f.ofImage (reference + UInt64.ofNat d).toBitVec

/-! ## Distinct strings and codes -/

/-- The distinct strings in the order in which they came, last first, with their codes; and the code
of each string that came, last first. -/
structure Dictionary where
  code : Std.TreeMap Bytes Nat := {}
  entries : List Bytes := []
  size : Nat := 0
  codes : List Nat := []

def Dictionary.add (d : Dictionary) (bs : Bytes) : Dictionary :=
  match d.code[bs]? with
  | some c => { d with codes := c :: d.codes }
  | none =>
    { code := d.code.insert bs d.size, entries := bs :: d.entries, size := d.size + 1,
      codes := d.size :: d.codes }

def stringOf (f : Field) (v : Value) : Except Error Bytes :=
  match v.bytes? with
  | some bs => .ok bs
  | none => .error (.unsupported (.dictionaryKind v.kind f.type))

def encodeDictionary (f : Field) (values : List Value) : Except Error Bytes := do
  let strings ← values.mapM (stringOf f)
  if strings.isEmpty then return []
  let d := strings.foldl Dictionary.add {}
  let width := bitWidth (d.size - 1)
  return Varint.encode d.size ++ d.entries.reverse.flatMap (fun e => Varint.encode e.length ++ e)
    ++ UInt8.ofNat width :: pack width d.codes.reverse

def entry : Decoder Bytes := do
  let length ← Varint.decode
  Decoder.take length "dictionary entry"

def decodeDictionary (f : Field) (count : Nat) : Decoder (List Value) := do
  if count = 0 then return []
  let size ← Varint.decode
  let left ← Decoder.remaining
  if size = 0 ∨ left < size then Decoder.fail (.dictionarySize size left)
  let entries ← Decoder.times size entry
  unless entries.all (f.fits ·.length) do Decoder.fail (.dictionaryEntry f.length.toNat)
  let width ← Decoder.byte "dictionary code width"
  let codes ← takeBits width.toNat count
  let table := entries.toArray
  Decoder.ofExcept <| codes.mapM fun c =>
    match table[c]? with
    | some e => .ok (.bytes e)
    | none => .error (.corruption (.dictionaryCode c size))

/-! ## All encodings -/

def encodeValues (f : Field) (e : Encoding) (values : List Value) : Except Error Bytes :=
  match e with
  | .plain => .ok (values.flatMap Value.encode)
  | .bitPacked => encodePacked f values
  | .dictionary => encodeDictionary f values

def decodeValues (f : Field) (e : Encoding) (count : Nat) : Decoder (List Value) :=
  match e with
  | .plain => Decoder.times count f.decode
  | .bitPacked => decodePacked f count
  | .dictionary => decodeDictionary f count

end Page

end Columnar
