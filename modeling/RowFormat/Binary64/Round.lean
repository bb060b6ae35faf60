import RowFormat.Binary64.Basic

namespace RowFormat

namespace Binary64

/-- The natural number nearest to a quotient; halfway between two, the even one. -/
def roundQuotient (num den : Nat) : Nat :=
  let q := num / den
  let twice := 2 * (num % den)
  if twice < den ∨ (twice = den ∧ q % 2 = 0) then q else q + 1

/-- The integer part of the binary logarithm of a positive quotient. -/
def logQuotient (num den : Nat) : Int :=
  let guess : Int := (num.log2 : Int) - den.log2
  if den <<< guess.toNat ≤ num <<< (-guess).toNat then guess else guess - 1

/-- The magnitude nearest to a quotient. A significand that rounds up to `2 ^ 53` carries into the
exponent field by itself, since the fields are added and not joined. -/
def magnitudeOfQuotient (num den : Nat) : Nat :=
  if num = 0 then 0
  else
    let step := max (logQuotient num den - 52) (-1074)
    let q := roundQuotient (num <<< (-step).toNat) (den <<< step.toNat)
    min infinityMagnitude ((step + 1074).toNat * fractionLimit + q)

/-- The double nearest to `digits * 10 ^ scale`. Scales that put the number beyond every finite
double, or under half of the smallest, are answered without computing the power. -/
def ofDecimal (negative : Bool) (digits : Nat) (scale : Int) : Binary64 :=
  let log : Int := digits.log2
  ofMagnitude negative <|
    if digits = 0 then 0
    else if log + 3 * scale > 1100 ∧ 0 ≤ scale then infinityMagnitude
    else if log + 1 + 3 * scale < -1100 ∧ scale ≤ 0 then 0
    else magnitudeOfQuotient (digits * Nat.pow 10 scale.toNat) (Nat.pow 10 (-scale).toNat)

end Binary64

end RowFormat
