import RowFormat.Word

namespace RowFormat

/-- A double-precision number, given by its bits. Equality of the structure tells `-0.0` from
`0.0` and one NaN from another; `sameNumber` compares as numbers. -/
structure Binary64 where
  bits : UInt64
deriving DecidableEq, Hashable

namespace Binary64

def isNegative (x : Binary64) : Bool := signedLimit ≤ x.bits.toNat

/-- The bits without the sign. -/
def magnitude (x : Binary64) : Nat := x.bits.toNat % signedLimit

/-- One above the largest fraction field, and the part of a significand that is not written. -/
abbrev fractionLimit : Nat := 0x10000000000000

def exponentField (x : Binary64) : Nat := x.magnitude / fractionLimit

def fractionField (x : Binary64) : Nat := x.magnitude % fractionLimit

/-- The magnitude of both infinities, one above the largest finite one. -/
def infinityMagnitude : Nat := 2047 * fractionLimit

def isNaN (x : Binary64) : Bool := infinityMagnitude < x.magnitude

def isInfinite (x : Binary64) : Bool := x.magnitude == infinityMagnitude

def isZero (x : Binary64) : Bool := x.magnitude == 0

/-- Builds a number from its sign and the bits below it. -/
def ofMagnitude (negative : Bool) (magnitude : Nat) : Binary64 :=
  ⟨UInt64.ofNat (if negative then signedLimit + magnitude else magnitude)⟩

def zero : Binary64 := ofMagnitude false 0

/-- A finite number is its significand times two to its exponent. -/
def significand (x : Binary64) : Nat :=
  if x.exponentField = 0 then x.fractionField else fractionLimit + x.fractionField

/-- The power of two that a step of the significand is worth. -/
def exponent (x : Binary64) : Int := (max x.exponentField 1 : Nat) - 1075

/-- Equality of numbers: a NaN equals nothing, and the two zeros are one number. -/
def sameNumber (x y : Binary64) : Bool :=
  !x.isNaN && !y.isNaN && (x == y || (x.isZero && y.isZero))

/-- The largest integer not above the absolute value of a finite number. -/
def floorAbs (x : Binary64) : Nat :=
  (x.significand <<< x.exponent.toNat) >>> (-x.exponent).toNat

/-- Drops the fraction and goes to the nearest end of the range where the integer does not fit;
a NaN goes to zero. -/
def truncate (x : Binary64) : Int64 :=
  if x.isNaN then 0
  else
    let size : Nat := if x.isInfinite then signedLimit else x.floorAbs
    let whole : Int := if x.isNegative then -size else size
    Int64.ofInt (max (-signedLimit) (min (signedLimit - 1) whole))

end Binary64

end RowFormat
