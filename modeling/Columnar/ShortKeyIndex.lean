import Columnar.Bisect
import Columnar.Crc32c
import Columnar.Decoder

/-! Short-key indexes: the short key of the first row of each block of rows. -/

namespace Columnar

structure ShortKeyIndex where
  segmentId : UInt32
  numRowsPerBlock : UInt32
  numRows : UInt32
  keys : Array Bytes

/-- The three parts of a stored index. -/
structure ShortKeySlices where
  header : Bytes
  keys : Bytes
  offsets : Bytes

/-- Gathers the keys of a segment that is being written. -/
structure ShortKeyDraft where
  segmentId : UInt32
  numRowsPerBlock : UInt32
  /-- The keys, one behind the other. -/
  keyBytes : ByteArray := .empty
  /-- Where each key begins. -/
  offsets : Array UInt32 := #[]
  finalized : Bool := false

namespace ShortKeyDraft

def headerSize : Nat := 28

/-- Why no key can be added, unless one can. -/
def refusal? (d : ShortKeyDraft) : Option Error :=
  if d.finalized then some (.state .shortKeysFinalized)
  else if 2 ^ 32 ≤ d.keyBytes.size then some (.unsupported .shortKeyBytes)
  else none

/-- The draft with one more key, which `write` puts behind the others. -/
def pushWith (d : ShortKeyDraft) (write : ByteArray → ByteArray) : ShortKeyDraft :=
  let start := UInt32.ofNat d.keyBytes.size
  { d with offsets := d.offsets.push start, keyBytes := write d.keyBytes }

def push (d : ShortKeyDraft) (key : Bytes) : ShortKeyDraft := d.pushWith key.appendTo

/-- Adds the key of the first row of the next block. -/
def add (key : Bytes) : EStateM Error ShortKeyDraft Unit := fun d =>
  match d.refusal? with
  | some e => .error e d
  | none => .ok () (d.push key)

/-- Adds keys up to the first that is refused. -/
def addAll : List Bytes → EStateM Error ShortKeyDraft Unit
  | [] => fun d => .ok () d
  | key :: keys => fun d =>
    match add key d with
    | .ok _ d => addAll keys d
    | .error e d => .error e d

def numItems (d : ShortKeyDraft) : Nat := d.offsets.size

/-- The length of the stored index. -/
def size (d : ShortKeyDraft) : Nat := headerSize + d.keyBytes.size + d.offsets.size * 4

/-- The stored index of a segment of `numRows` rows. The draft is of no use afterwards; it gives up
its keys if all went well. -/
def finalize (numRows : Nat) : EStateM Error ShortKeyDraft ShortKeySlices := do
  let d ← get
  if d.finalized then throw (.state .shortKeysFinalized)
  set { d with finalized := true }
  if 2 ^ 32 ≤ numRows then throw (.unsupported (.rows numRows))
  let keys := d.keyBytes.data.toList
  let offsets := d.offsets.toList.flatMap fun o => Bytes.little 4 o.toNat
  let header :=
    Bytes.little 4 d.segmentId.toNat ++ Bytes.little 4 d.numRowsPerBlock.toNat
      ++ Bytes.little 4 d.numItems ++ Bytes.little 4 numRows ++ Bytes.little 4 keys.length
      ++ Bytes.little 4 offsets.length ++ Bytes.little 4 (crc32c (keys ++ offsets)).toNat
  set { d with finalized := true, keyBytes := .empty }
  return { header, keys, offsets }

end ShortKeyDraft

namespace ShortKeyIndex

/-- The first offset out of order, with its position. Offsets begin at 0, do not fall, and stay
inside the keys. -/
def misplaced? (keyBytes : Nat) : (position next : Nat) → List Nat → Option (Nat × Nat)
  | _, _, [] => none
  | position, next, o :: os =>
    if (if position = 0 then o = 0 else next ≤ o) ∧ o ≤ keyBytes then
      misplaced? keyBytes (position + 1) o os
    else some (position, o)

/-- Cuts the keys at the offsets, where `start` is that of the first byte. -/
def splitOnto : (keys : Bytes) → (start : Nat) → List Nat → List Bytes → List Bytes
  | keys, _, [], done => (keys :: done).reverse
  | keys, start, o :: os, done =>
    splitOnto (keys.drop (o - start)) o os (keys.take (o - start) :: done)

def split (keys : Bytes) : List Nat → List Bytes
  | [] => []
  | o :: os => splitOnto (keys.drop o) o os []

/-- How many blocks the rows fill, the last one perhaps in part. -/
def blocksFor (numRows rowsPerBlock : Nat) : Nat :=
  if rowsPerBlock = 0 then 0 else (numRows + rowsPerBlock - 1) / rowsPerBlock

def decode : Decoder ShortKeyIndex := do
  let segmentId ← Decoder.word32 "short key segment id"
  let numRowsPerBlock ← Decoder.word32 "short key rows per block"
  let numItems ← Decoder.word 4 "short key item count"
  let numRows ← Decoder.word32 "short key row count"
  let keySize ← Decoder.word 4 "short key bytes length"
  let offsetSize ← Decoder.word 4 "short key offsets length"
  let stored ← Decoder.word32 "short key checksum"
  let rest ← get
  if rest.length ≠ keySize + offsetSize then
    Decoder.fail (.shortKeySize rest.length (keySize + offsetSize))
  let computed := crc32c rest
  if stored ≠ computed then throw (.checksum stored computed)
  if offsetSize ≠ numItems * 4 then Decoder.fail (.shortKeyOffsets numItems offsetSize)
  let rows := numRows.toNat
  let perBlock := numRowsPerBlock.toNat
  if perBlock = 0 ∨ numItems ≠ blocksFor rows perBlock then
    Decoder.fail (.shortKeyItems numItems rows perBlock)
  let keys ← Decoder.take keySize "short key bytes"
  let offsets ← Decoder.times numItems (Decoder.word 4 "short key offset")
  if let some (item, offset) := misplaced? keySize 0 0 offsets then
    Decoder.fail (.shortKeyOrder offset item)
  return { segmentId, numRowsPerBlock, numRows, keys := (split keys offsets).toArray }

def parse (data : Bytes) : Except Error ShortKeyIndex :=
  match decode data with
  | .ok index _ => .ok index
  | .error e _ => .error e

def numItems (x : ShortKeyIndex) : Nat := x.keys.size

/-- The ordinal of the first row of a block. -/
def blockStart (x : ShortKeyIndex) (block : Nat) : Nat := block * x.numRowsPerBlock.toNat

/-- Where keys stop to meet a condition, by bisection. -/
def partition (x : ShortKeyIndex) (meets : Bytes → Bool) : Nat :=
  bisect (fun i => x.keys[i]?.any meets) 0 x.numItems

/-- The first key that is not below the target. -/
def lowerBound (x : ShortKeyIndex) (target : Bytes) : Nat :=
  x.partition fun key => compare key target = .lt

/-- The first key above the target. -/
def upperBound (x : ShortKeyIndex) (target : Bytes) : Nat :=
  x.partition fun key => compare key target ≠ .gt

/-- The block from which a scan for the target starts. -/
def seekBlock (x : ShortKeyIndex) (target : Bytes) : Nat := x.lowerBound target - 1

end ShortKeyIndex

end Columnar
