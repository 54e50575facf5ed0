import Columnar.Bytes
import Columnar.Error

/-! Expanding LZ4 blocks. A block is a row of sequences: some literal bytes, then a match, which
repeats bytes from further back in the output. The last sequence has no match. -/

namespace Columnar.Lz4

/-- Adds up bytes to the first one below 255. -/
def lengthFrom (n : Nat) :
    (bs : Bytes) → Option (Nat × { rest : Bytes // rest.length < bs.length })
  | [] => none
  | b :: bs =>
    if b = 255 then
      (lengthFrom (n + 255) bs).map fun (m, rest) =>
        (m, ⟨rest.1, Nat.lt_succ_of_lt rest.2⟩)
    else some (n + b.toNat, ⟨bs, Nat.lt_succ_self _⟩)

/-- The length that half a token begins. -/
def length? (nibble : Nat) (bs : Bytes) :
    Option (Nat × { rest : Bytes // rest.length ≤ bs.length }) :=
  if nibble = 15 then
    (lengthFrom 15 bs).map fun (n, rest) => (n, ⟨rest.1, Nat.le_of_lt rest.2⟩)
  else some (nibble, ⟨bs, Nat.le_refl _⟩)

/-- Appends `n` bytes, each a copy of the one `offset` places back. -/
def copyBack (offset : Nat) : Nat → Array UInt8 → Array UInt8
  | 0, out => out
  | n + 1, out => copyBack offset n (out.push (out.getD (out.size - offset) 0))

/-- Expands a block behind `out`, to at most `capacity` bytes. -/
def expandOnto (capacity : Nat) (block : Bytes) (out : Array UInt8) :
    Except BadCompression (Array UInt8) :=
  match block with
  | [] => .error .endOfBlock
  | t :: bs =>
    match length? (t.toNat / 16) bs with
    | none => .error .endOfBlock
    | some (n, ⟨bs', _fewer⟩) =>
      if ¬ Bytes.hasAtLeast n bs' then .error .literalPastEnd
      else if capacity < out.size + n then .error (.outputTooSmall capacity (out.size + n))
      else
        let out := out ++ bs'.take n
        match _split : bs'.drop n with
        | [] => .ok out
        | [_] => .error .endOfBlock
        | low :: high :: bs'' =>
          let offset := low.toNat + 256 * high.toNat
          if offset = 0 then .error .zeroOffset
          else match length? (t.toNat % 16) bs'' with
          | none => .error .endOfBlock
          | some (extra, ⟨rest, _fewer'⟩) =>
            let m := extra + 4
            if capacity < out.size + m then .error (.outputTooSmall capacity (out.size + m))
            else if out.size < offset then .error .offsetBeforeStart
            else expandOnto capacity rest (copyBack offset m out)
termination_by block.length
decreasing_by
  have := congrArg List.length _split
  simp at *
  omega

def expand (capacity : Nat) (block : Bytes) : Except BadCompression Bytes :=
  (expandOnto capacity block #[]).map Array.toList

end Columnar.Lz4
