import Columnar.Value
import Columnar.Varint

/-! A field: the type of a column with its declared length. It says which values belong, how they
compare, and how each is stored. -/

namespace Columnar

/-- Numbers least significant byte first; strings behind their length. -/
def Value.encode : Value → Bytes
  | .bool b => [if b then 1 else 0]
  | .int8 n => Bytes.little 1 n.toNat
  | .int16 n => Bytes.little 2 n.toNat
  | .int32 n => Bytes.little 4 n.toNat
  | .int64 n => Bytes.little 8 n.toNat
  | .int128 n => Bytes.little 16 n.toNat
  | .float32 bits => Bytes.little 4 bits.toNat
  | .float64 bits => Bytes.little 8 bits.toNat
  | .date days => Bytes.little 4 days.toNat
  | .datetime packed => Bytes.little 8 packed.toNat
  | .decimal d => Bytes.little 8 d.integer.toNat ++ Bytes.little 4 d.fraction.toNat
  | .bytes bs => Varint.encode bs.length ++ bs

structure Field where
  type : FieldType
  /-- The most bytes a string value has; 0 means any number. -/
  length : UInt32
  deriving DecidableEq

namespace Field

/-- Whether a string of this many bytes fits the declared length. -/
def fits (f : Field) (bytes : Nat) : Bool := f.length = 0 || bytes ≤ f.length.toNat

def check (f : Field) (v : Value) : Except Error Unit :=
  if v.kind ≠ f.type.kind then .error (.argument (.kind v.kind f.type))
  else match v with
    | .bytes bs =>
      -- As `fits`, but the bytes are not counted if any number will do.
      if f.length = 0 ∨ bs.length ≤ f.length.toNat then .ok ()
      else .error (.argument (.length f.type bs.length f.length.toNat))
    | _ => .ok ()

/-! ## Stored form -/

/-- The length of `encode v`, if `v` is a value of the field. -/
def encodedSize (f : Field) : Value → Nat
  | .bytes bs => Varint.size bs.length + bs.length
  | _ => f.type.fixedSize?.getD 0

/-- A word of `k` bytes, of which `w` bits count. -/
def wordOf (w k : Nat) (what : String) : Decoder (BitVec w) := do
  let n ← Decoder.word k what
  return BitVec.ofNat w n

/-- The next value in its stored form. -/
def decode (f : Field) : Decoder Value := do
  let what := f.type.name
  match f.type with
  | .bool =>
    let b ← Decoder.byte what
    if b = 0 then return .bool false
    else if b = 1 then return .bool true
    else Decoder.fail (.boolByte b)
  | .tinyint => return .int8 (← wordOf 8 1 what)
  | .smallint => return .int16 (← wordOf 16 2 what)
  | .int => return .int32 (← wordOf 32 4 what)
  | .bigint => return .int64 (← wordOf 64 8 what)
  | .largeint => return .int128 (← wordOf 128 16 what)
  | .float => return .float32 (← wordOf 32 4 what)
  | .double => return .float64 (← wordOf 64 8 what)
  | .date => return .date (← wordOf 32 4 what)
  | .datetime => return .datetime (← wordOf 64 8 what)
  | .decimal =>
    let integer ← wordOf 64 8 what
    let fraction ← wordOf 32 4 what
    return .decimal ⟨integer, fraction⟩
  | .char | .varchar =>
    let length ← Varint.decode
    return .bytes (← Decoder.take length what)

/-- The value of the field with this image. -/
def ofImage (f : Field) (image : BitVec 64) : Except Error Value :=
  match Value.ofImage? f.type image with
  | some v => .ok v
  | none =>
    if f.type.isIntegerLike then .error (.corruption (.outOfRange image.toInt f.type))
    else .error (.unsupported (.notIntegerLike f.type))

end Field

end Columnar
