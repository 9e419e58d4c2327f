import PropertyAccess.Floating.Format
import PropertyAccess.Floating.Decimal

/-! Writing a datum with the fewest decimal digits that read back as it, of
those the nearest, of two equally near ones the larger. The text is always
positional, without a point when there is no fraction. -/

namespace PropertyAccess.Floating

/-- The magnitudes that round to one datum, as quotients with the divisor
`2 * one`: from `low` to `high`, ends included when `closed`. -/
structure Interval where
  low : Nat
  middle : Nat
  high : Nat
  closed : Bool

namespace Interval

def contains (i : Interval) (scale point : Nat) : Bool :=
  if i.closed then i.low * scale ≤ point && point ≤ i.high * scale
  else i.low * scale < point && point < i.high * scale

/-- Of the multiples of `step`, both measured `scale` times finer than the
interval, the nearest to its middle that it contains. -/
def multiple? (i : Interval) (scale step : Nat) : Option Nat :=
  let middle := i.middle * scale
  let below := middle / step
  let above := below + 1
  let belowIn := i.contains scale (below * step)
  let aboveIn := i.contains scale (above * step)
  if belowIn && aboveIn then
    if middle - below * step < above * step - middle then some below else some above
  else if belowIn then some below
  else if aboveIn then some above
  else none

/-- The nearest multiple of a power of ten, where `unit` stands for one. -/
def onGrid? (i : Interval) (unit : Nat) (power : Int) : Option Nat :=
  if 0 ≤ power then i.multiple? 1 (Nat.pow 10 power.toNat * unit)
  else i.multiple? (Nat.pow 10 (-power).toNat) unit

/-- Tries powers of ten downwards. -/
def search (i : Interval) (unit : Nat) : Nat → Int → Decimal
  | 0, power => ⟨i.middle / unit, max power 0⟩
  | tries + 1, power =>
    match i.onGrid? unit power with
    | some n => ⟨n, power⟩
    | none => i.search unit tries (power - 1)

end Interval

namespace Binary

variable {F : Format}

def interval (x : Binary F) : Interval :=
  ⟨x.units + F.units (x.rank - 1), 2 * x.units, x.units + F.units (x.rank + 1),
    x.rank % 2 == 0⟩

/-- A power of ten above the magnitude of a datum of `bits` bits, where one has `unit` bits. -/
def decimalBound (bits unit : Nat) : Int :=
  ((bits : Int) - unit) * 30103 / 100000 + 2

/-- The digits of a finite datum other than zero. -/
def shortest (x : Binary F) : Decimal :=
  let i := x.interval
  i.search (2 * F.one) (F.fractionBits + 8)
    (decimalBound (Nat.log2 i.high) (F.unitBits + 1))

/-- Digits with the point `places` from the right. -/
def pointed (digits : List Char) (places : Nat) : List Char :=
  if places = 0 then digits
  else
    let padded := List.replicate (places + 1 - digits.length) '0' ++ digits
    padded.take (padded.length - places) ++ '.' :: padded.drop (padded.length - places)

def positional (d : Decimal) : List Char :=
  let digits := Nat.toDigits 10 d.digits
  if 0 ≤ d.exponent then digits ++ List.replicate d.exponent.toNat '0'
  else pointed digits (-d.exponent).toNat

def toText (x : Binary F) : String :=
  let magnitude :=
    if x.isInfinite then "inf".toList
    else if x.rank = 0 then ['0']
    else positional x.shortest
  if x.isNaN then "NaN"
  else if x.negative then String.ofList ('-' :: magnitude)
  else String.ofList magnitude

end Binary

end PropertyAccess.Floating
