import Columnar.Bytes
import Columnar.Error

/-! Readers of byte strings. A reader takes what it needs off the front; where it stands after a
failure is part of its answer. -/

namespace Columnar

abbrev Decoder := EStateM Error Bytes

namespace Decoder

variable {α : Type}

def fail (cause : Corruption) : Decoder α := throw (.corruption cause)

/-- The next `n` bytes. A failure leaves them where they are. -/
def take (n : Nat) (what : String) : Decoder Bytes := fun bs =>
  if Bytes.hasAtLeast n bs then .ok (bs.take n) (bs.drop n)
  else .error (.corruption (.truncated what n bs.length)) bs

def byte (what : String) : Decoder UInt8 := fun bs =>
  match bs with
  | b :: rest => .ok b rest
  | [] => .error (.corruption (.truncated what 1 0)) []

/-- A number of `k` bytes, least significant first. -/
def word (k : Nat) (what : String) : Decoder Nat := do
  let bytes ← take k what
  return bytes.toNat

def word32 (what : String) : Decoder UInt32 := do
  let n ← word 4 what
  return UInt32.ofNat n

def word64 (what : String) : Decoder UInt64 := do
  let n ← word 8 what
  return UInt64.ofNat n

/-- A byte that is 0 or 1. -/
def flag (what : String) : Decoder Bool := do
  let b ← byte what
  if b = 0 then return false
  else if b = 1 then return true
  else fail (.flag what b)

/-- A byte that stands for something, or is unknown. -/
def named (what : String) (ofId? : UInt8 → Option α) (unknown : UInt8 → Corruption) :
    Decoder α := do
  let b ← byte what
  match ofId? b with
  | some a => return a
  | none => fail (unknown b)

/-- How many bytes are left. -/
def remaining : Decoder Nat := return (← get).length

def repeatOnto (p : Decoder α) : Nat → List α → Decoder (List α)
  | 0, done => fun bs => .ok done.reverse bs
  | n + 1, done => fun bs =>
    match p bs with
    | .ok a rest => repeatOnto p n (a :: done) rest
    | .error e rest => .error e rest

/-- What `p` reads when run `n` times. -/
def times (n : Nat) (p : Decoder α) : Decoder (List α) := repeatOnto p n []

theorem take_eq_ok {n : Nat} {what : String} {bs : Bytes} (h : n ≤ bs.length) :
    take n what bs = .ok (bs.take n) (bs.drop n) := by
  simp [take, h]

theorem take_append {xs ys : Bytes} {what : String} :
    take xs.length what (xs ++ ys) = .ok xs ys := by
  simp [take_eq_ok]

theorem take_eq_error {n : Nat} {what : String} {bs : Bytes} (h : bs.length < n) :
    take n what bs = .error (.corruption (.truncated what n bs.length)) bs := by
  simp [take, Nat.not_le.2 h]

end Decoder

end Columnar
