import Columnar.Varint

/-! Where a part of a file lies. -/

namespace Columnar

structure Pointer where
  offset : UInt64
  size : UInt32
  deriving DecidableEq

namespace Pointer

/-- A pointer to `length` bytes at `offset`. -/
def new (offset length : Nat) : Except Error Pointer :=
  if length < 2 ^ 32 then .ok ⟨UInt64.ofNat offset, UInt32.ofNat length⟩
  else .error (.unsupported (.sectionSize length))

/-- Where the part ends, in a file of any size. -/
def stop (p : Pointer) : Nat := p.offset.toNat + p.size.toNat

/-- Where the part ends, or the last word if that is no word. -/
def clampedStop (p : Pointer) : Nat := min p.stop (2 ^ 64 - 1)

/-- Whether the part lies inside a file. -/
def within (p : Pointer) (fileSize : Nat) : Bool := p.stop ≤ fileSize

def encode (p : Pointer) : Bytes := Varint.encode p.offset.toNat ++ Varint.encode p.size.toNat

def decode : Decoder Pointer := do
  let offset ← Varint.decode
  let size ← Varint.decode32
  return ⟨UInt64.ofNat offset, size⟩

/-- A byte that says whether a pointer follows. -/
def encodeOptional : Option Pointer → Bytes
  | some p => 1 :: p.encode
  | none => [0]

def decodeOptional (what : String) : Decoder (Option Pointer) := do
  if ← Decoder.flag what then return some (← decode) else return none

end Pointer

end Columnar
