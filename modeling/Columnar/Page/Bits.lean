import Columnar.Decoder

/-! Numbers of a few bits each, one after the other from the low end of the first byte. -/

namespace Columnar.Page

/-- The bits of a number without leading zeros. -/
def bitWidth (n : Nat) : Nat := if n = 0 then 0 else n.log2 + 1

/-- Packs behind `bits` pending bits, fewer than eight of them, which are those of `carry`. -/
def packOnto (w : Nat) : List Nat → (carry bits : Nat) → Bytes → Bytes
  | [], carry, bits, done => (if bits = 0 then done else UInt8.ofNat carry :: done).reverse
  | v :: vs, carry, bits, done =>
    let sum := carry + v * 2 ^ bits
    let whole := (bits + w) / 8
    packOnto w vs (sum / 256 ^ whole) ((bits + w) % 8) ((Bytes.little whole sum).reverse ++ done)

/-- The low `w` bits of each number. -/
def pack (w : Nat) (values : List Nat) : Bytes := packOnto w values 0 0 []

/-- Unpacks `n` numbers from behind `bits` bits that are read already, which are those of
`carry`. -/
def unpackOnto (w : Nat) : Nat → Bytes → (carry bits : Nat) → List Nat → List Nat
  | 0, _, _, _, done => done.reverse
  | n + 1, bs, carry, bits, done =>
    let need := (w - bits + 7) / 8
    let sum := carry + (Bytes.toNat (bs.take need)) * 2 ^ bits
    unpackOnto w n (bs.drop need) (sum / 2 ^ w) (bits + 8 * need - w) (sum % 2 ^ w :: done)

def unpack (w count : Nat) (bs : Bytes) : List Nat := unpackOnto w count bs 0 0 []

/-- The bytes that so many bits take. -/
def bytesFor (bits : Nat) : Nat := (bits + 7) / 8

/-- The next `count` numbers of `w` bits. -/
def takeBits (w count : Nat) : Decoder (List Nat) :=
  if 64 < w then Decoder.fail (.bitWidth w)
  else if w = 0 then return List.replicate count 0
  else if 2 ^ 64 ≤ count * w then Decoder.fail .bitRun
  else do
    let packed ← Decoder.take (bytesFor (count * w)) "bit-packed values"
    return unpack w count packed

end Columnar.Page
