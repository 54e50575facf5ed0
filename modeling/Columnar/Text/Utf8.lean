import Columnar.Bytes

/-! UTF-8 read leniently: each longest beginning of a character that stays without its end, and
each byte that begins none, reads as one replacement character. -/

namespace Columnar.Text.Utf8

/-- Between characters, or inside one: its bits so far, the number of bytes it still needs, and
the range of the next one. -/
inductive State
  | between
  | inside (bits missing : Nat) (low high : UInt8)

/-- Stands for bytes that are no character. -/
def replacement : Char := Char.ofNat 0xFFFD

/-- The first byte of a character. -/
def lead (b : UInt8) : Option Char × State :=
  if b < 0x80 then (some (Char.ofNat b.toNat), .between)
  else if 0xC2 ≤ b ∧ b ≤ 0xDF then (none, .inside (b.toNat % 32) 1 0x80 0xBF)
  else if 0xE0 ≤ b ∧ b ≤ 0xEF then
    (none, .inside (b.toNat % 16) 2 (if b = 0xE0 then 0xA0 else 0x80)
      (if b = 0xED then 0x9F else 0xBF))
  else if 0xF0 ≤ b ∧ b ≤ 0xF4 then
    (none, .inside (b.toNat % 8) 3 (if b = 0xF0 then 0x90 else 0x80)
      (if b = 0xF4 then 0x8F else 0xBF))
  else (some replacement, .between)

/-- The characters that end with the byte, last one first, and the state behind it. -/
def step (b : UInt8) : State → List Char × State
  | .between => let (c, s) := lead b; (c.toList, s)
  | .inside bits missing low high =>
    if low ≤ b ∧ b ≤ high then
      let bits := bits * 64 + b.toNat % 64
      if missing = 1 then ([Char.ofNat bits], .between)
      else ([], .inside bits (missing - 1) 0x80 0xBF)
    else let (c, s) := lead b; (c.toList ++ [replacement], s)

def decodeOnto : Bytes → State → List Char → List Char
  | [], .between, done => done.reverse
  | [], .inside .., done => (replacement :: done).reverse
  | b :: bs, s, done => decodeOnto bs (step b s).2 ((step b s).1 ++ done)

def decode (bs : Bytes) : String := String.ofList (decodeOnto bs .between [])

end Columnar.Text.Utf8
