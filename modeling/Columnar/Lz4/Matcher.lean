import Std.Data.HashMap
import Columnar.Lz4.Compressor

/-! A compressor. From left to right, each place looks for a match at the last one that began with
the same four bytes. -/

namespace Columnar.Lz4

/-! ## Sequences -/

structure Sequence where
  literals : Bytes
  /-- How far back the match starts. -/
  offset : Nat
  /-- The bytes of the match, at least 4. -/
  length : Nat

/-- What a length of at least 15 goes on with: 255 as often as it goes, then the rest. -/
def lengthTail (n : Nat) : Bytes :=
  if n < 15 then [] else List.replicate ((n - 15) / 255) 255 ++ [UInt8.ofNat ((n - 15) % 255)]

/-- Two lengths in one byte, each at most 15. -/
def token (literals extra : Nat) : UInt8 := UInt8.ofNat (min literals 15 * 16 + min extra 15)

def Sequence.encode (s : Sequence) : Bytes :=
  token s.literals.length (s.length - 4) :: lengthTail s.literals.length ++ s.literals
    ++ Bytes.little 2 s.offset ++ lengthTail (s.length - 4)

def encodeLast (literals : Bytes) : Bytes :=
  token literals.length 0 :: lengthTail literals.length ++ literals

def encode (sequences : List Sequence) (last : Bytes) : Bytes :=
  sequences.flatMap Sequence.encode ++ encodeLast last

/-! ## Finding matches -/

/-- No match begins in the last 12 bytes of a block, nor reaches into the last 5. -/
def matchMargin : Nat := 12

def lastLiterals : Nat := 5

/-- A match reaches back no further. -/
def maxOffset : Nat := 65535

def slice (data : Array UInt8) (start stop : Nat) : Bytes := (data.extract start stop).toList

/-- How many of `n` bytes from `i` are those from `j`, up to the first that differ. -/
def agreement (data : Array UInt8) (i j : Nat) : Nat → Nat → Nat
  | 0, found => found
  | n + 1, found =>
    if data[i]? = data[j]? then agreement data (i + 1) (j + 1) n (found + 1) else found

structure Match where
  offset : Nat
  length : Nat
  four_le : 4 ≤ length

/-- The match that begins at `i`, if the place `j?` gives one. -/
def matchAt? (data : Array UInt8) (i : Nat) (j? : Option Nat) : Option Match :=
  match j? with
  | some j =>
    let n := agreement data i j (data.size - lastLiterals - i) 0
    if h : 4 ≤ n then
      if j < i ∧ i - j ≤ maxOffset then some ⟨i - j, n, h⟩ else none
    else none
  | none => none

/-- Searches from `i` on. `seen` holds the last place of each four bytes, and `anchor` is where the
literals of the next sequence begin. -/
def searchOnto (data : Array UInt8) (seen : Std.HashMap Nat Nat) (anchor i : Nat)
    (done : List Sequence) : List Sequence × Nat :=
  if _here : i + matchMargin ≤ data.size then
    let key := Bytes.toNat (slice data i (i + 4))
    let seen' := seen.insert key i
    match matchAt? data i seen[key]? with
    | some ⟨offset, n, _long⟩ =>
      searchOnto data seen' (i + n) (i + n) (⟨slice data anchor i, offset, n⟩ :: done)
    | none => searchOnto data seen' anchor (i + 1) done
  else (done.reverse, anchor)
termination_by data.size - i
decreasing_by
  all_goals simp [matchMargin] at _here
  all_goals omega

/-- Makes a sequence of each match that the search finds. -/
@[reducible] def matcher : Compressor where
  compress data :=
    let all := data.toArray
    let (sequences, anchor) := searchOnto all {} 0 0 []
    encode sequences (slice all anchor all.size)

end Columnar.Lz4
