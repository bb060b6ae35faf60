import RowFormat.Binary64.Basic

namespace RowFormat

namespace Binary64

/-- A decimal number `digits * 10 ^ scale`. -/
structure Decimal where
  digits : Nat
  scale : Int
deriving DecidableEq

/-- The reals that round to a positive finite double, as numerators over one denominator. -/
structure RoundingInterval where
  low : Nat
  mid : Nat
  high : Nat
  den : Nat
  closed : Bool

/-- Below a power of two the next double is half as far away as above it. The ends belong to the
interval iff the significand is even, since ties go to even. -/
def roundingInterval (x : Binary64) : RoundingInterval :=
  let below := if x.fractionField = 0 ∧ 1 < x.exponentField then 1 else 2
  let shift := (x.exponent - 2).toNat
  { low := (4 * x.significand - below) <<< shift
    mid := (4 * x.significand) <<< shift
    high := (4 * x.significand + 2) <<< shift
    den := 1 <<< (2 - x.exponent).toNat
    closed := x.significand % 2 = 0 }

namespace RoundingInterval

/-- Whether `num` over the interval's denominator lies inside. -/
def holds (r : RoundingInterval) (num : Nat) : Bool :=
  if r.closed then r.low ≤ num && num ≤ r.high else r.low < num && num < r.high

/-- The interval in units of `10 ^ scale`. -/
def onGrid (r : RoundingInterval) (scale : Int) : RoundingInterval :=
  let up := Nat.pow 10 (-scale).toNat
  { r with low := r.low * up, mid := r.mid * up, high := r.high * up,
           den := r.den * Nat.pow 10 scale.toNat }

/-- The whole number nearest to the middle among its two neighbours inside the interval, the
larger one if both are equally near. -/
def wholeInside? (r : RoundingInterval) : Option Nat :=
  let floor := r.mid / r.den
  let floorIn := r.holds (floor * r.den)
  let ceilIn := r.holds ((floor + 1) * r.den)
  if floorIn && (!ceilIn || 2 * (r.mid % r.den) < r.den) then some floor
  else if ceilIn then some (floor + 1)
  else none

/-- Goes to finer grids until one has a point in the interval. -/
def decimalFrom (r : RoundingInterval) : Nat → Int → Decimal
  | 0, scale => ⟨(r.onGrid scale).mid / (r.onGrid scale).den, scale⟩
  | n + 1, scale =>
    match (r.onGrid scale).wholeInside? with
    | some digits => ⟨digits, scale⟩
    | none => r.decimalFrom n (scale - 1)

end RoundingInterval

/-- An upper bound of the decimal logarithm, close enough that seventeen digits end at most twenty
grids below it. -/
def coarsestScale (x : Binary64) : Int :=
  ((x.significand.log2 : Int) + x.exponent + 1) * 30103 / 100000 + 1

/-- The shortest decimal that rounds to a positive finite double. The coarsest decimal grid with a point
in the rounding interval has the fewest digits, and if any point of a grid lies inside, one of the two
neighbours of the double on that grid does. -/
def shortest (x : Binary64) : Decimal :=
  x.roundingInterval.decimalFrom 20 x.coarsestScale

end Binary64

end RowFormat
