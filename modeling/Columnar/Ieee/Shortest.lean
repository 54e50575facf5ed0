import Columnar.Ieee.Format

/-! The shortest decimal that reads back as a floating-point value: of the decimals with the
fewest digits in the interval that rounds to the value, the nearest to it. It is written
positionally, whatever its size. -/

namespace Columnar.Ieee

/-- The numbers that round to a value, scaled to whole numbers: the value is `value / unit`, and
the interval reaches from `low / unit` to `high / unit`, with its ends if `closed` holds. -/
structure Interval where
  low : Nat
  value : Nat
  high : Nat
  unit : Nat
  closed : Bool

namespace Interval

/-- The interval of `significand * 2 ^ power`: half way to the neighbours, and with its ends if the
significand is even. -/
def around (significand : Nat) (power : Int) (narrow : Bool) : Interval :=
  let scale := 2 ^ (power - 2).toNat
  { low := (4 * significand - if narrow then 1 else 2) * scale
    value := 4 * significand * scale
    high := (4 * significand + 2) * scale
    unit := 2 ^ (2 - power).toNat
    closed := significand % 2 = 0 }

def holds (i : Interval) (x : Nat) : Bool :=
  if i.closed then i.low ≤ x ∧ x ≤ i.high else i.low < x ∧ x < i.high

/-- The interval in units of `10 ^ place`. -/
def onGrid (i : Interval) (place : Int) : Interval :=
  let finer := 10 ^ (-place).toNat
  { i with
    low := i.low * finer
    value := i.value * finer
    high := i.high * finer
    unit := i.unit * 10 ^ place.toNat }

/-- The multiple of `10 ^ place` in the interval that is nearest to the value; the larger of two. -/
def nearest? (i : Interval) (place : Int) : Option Nat :=
  let g := i.onGrid place
  let below := g.value / g.unit
  let above := below + 1
  let nearBelow := 2 * (g.value % g.unit) < g.unit
  if g.holds (below * g.unit) ∧ (nearBelow ∨ ¬ g.holds (above * g.unit)) then some below
  else if g.holds (above * g.unit) then some above
  else none

/-- The place of the leading digit of the value. -/
def leadingPlace (i : Interval) : Int :=
  if i.unit ≤ i.value then (Nat.toDigits 10 (i.value / i.unit)).length - 1
  else - (Nat.toDigits 10 (i.unit / i.value)).length

/-- Looks from `place` downwards, at one place for each unit of `count`, for a place with a
multiple in the interval. -/
def search (i : Interval) (place : Int) : Nat → Nat × Int
  | 0 => ((i.onGrid place).value / (i.onGrid place).unit, place)
  | count + 1 =>
    match i.nearest? place with
    | some digits => (digits, place)
    | none => i.search (place - 1) count

end Interval

/-- Digits and the place of the last one, of a value that is not zero. -/
def shortest (f : Format) (significand : Nat) (power : Int) (narrow : Bool) : Nat × Int :=
  let i := Interval.around significand power narrow
  i.search i.leadingPlace f.fraction

/-- A number without exponent: zeros fill up to the point, and none stand at the end behind it. -/
def positional (digits : Nat) (place : Int) : String :=
  let all := Nat.toDigits 10 digits
  let point : Int := all.length + place
  let ds := (all.reverse.dropWhile (· = '0')).reverse
  String.ofList <|
    if point ≤ 0 then '0' :: '.' :: List.replicate (-point).toNat '0' ++ ds
    else
      let n := point.toNat
      let whole := ds.take n ++ List.replicate (n - ds.length) '0'
      if ds.length ≤ n then whole else whole ++ '.' :: ds.drop n

namespace Format

def text (f : Format) (bits : Nat) : String :=
  let signed (negative : Bool) (s : String) := if negative then "-" ++ s else s
  match f.classify bits with
  | .nan => "NaN"
  | .infinite negative => signed negative "inf"
  | .finite negative 0 _ _ => signed negative "0"
  | .finite negative m q narrow =>
    let d := shortest f m q narrow
    signed negative (positional d.1 d.2)

end Format

end Columnar.Ieee
