import RowFormat.Binary64.Basic
import Mathlib.Algebra.Ring.Nat

namespace RowFormat

namespace Binary64

/-- An infinity, or a finite number as a multiple of the least positive one. -/
inductive Number
  | infinite (negative : Bool)
  | finite (steps : Int)
deriving DecidableEq

/-- The absolute value of a finite number, in steps of the least positive one. -/
def steps (x : Binary64) : Nat := x.significand * 2 ^ (x.exponent + 1074).toNat

/-- The number that a double stands for, if it is not a NaN. -/
def number? (x : Binary64) : Option Number :=
  if x.isNaN then none
  else if x.isInfinite then some (.infinite x.isNegative)
  else some (.finite (if x.isNegative then -x.steps else x.steps))

variable {x y : Binary64}

theorem bits_eq (x : Binary64) :
    x.bits.toNat = (if x.isNegative then signedLimit else 0) + x.magnitude := by
  have hlt := x.bits.toNat_lt
  simp only [isNegative, magnitude, signedLimit, decide_eq_true_eq] at hlt ⊢
  split <;> omega

theorem magnitude_lt (x : Binary64) : x.magnitude < signedLimit :=
  Nat.mod_lt _ (by decide)

/-- A double is its sign and its magnitude. -/
theorem ofMagnitude_magnitude (x : Binary64) : ofMagnitude x.isNegative x.magnitude = x := by
  have hbits : (if x.isNegative then signedLimit + x.magnitude else x.magnitude) = x.bits.toNat := by
    rw [bits_eq]
    split
    next => rfl
    next => exact (Nat.zero_add _).symm
  rw [ofMagnitude, hbits, UInt64.ofNat_toNat]

theorem ext_magnitude (hsign : x.isNegative = y.isNegative) (h : x.magnitude = y.magnitude) :
    x = y := by
  rw [← ofMagnitude_magnitude x, ← ofMagnitude_magnitude y, hsign, h]

theorem magnitude_ofMagnitude (negative : Bool) {m : Nat} (h : m < signedLimit) :
    (ofMagnitude negative m).magnitude = m := by
  simp only [magnitude, ofMagnitude, UInt64.toNat_ofNat', signedLimit] at h ⊢
  split <;> omega

theorem steps_eq (x : Binary64) : x.steps = x.significand * 2 ^ (x.exponentField - 1) := by
  have hexponent : (x.exponent + 1074).toNat = x.exponentField - 1 := by
    rw [exponent]
    omega
  rw [steps, hexponent]

theorem fractionField_lt (x : Binary64) : x.fractionField < fractionLimit :=
  Nat.mod_lt _ (by decide)

/-- A number lies below the first one with the next exponent. -/
theorem steps_lt (x : Binary64) : x.steps < fractionLimit * 2 ^ x.exponentField := by
  have hfraction := x.fractionField_lt
  rw [steps_eq, significand]
  cases x.exponentField with
  | zero =>
    rw [if_pos rfl]
    exact Nat.mul_lt_mul_of_pos_right hfraction (Nat.two_pow_pos _)
  | succ e =>
    rw [if_neg (Nat.succ_ne_zero e), Nat.add_sub_cancel, Nat.pow_succ', ← Nat.mul_assoc]
    exact Nat.mul_lt_mul_of_pos_right (by omega) (Nat.two_pow_pos e)

/-- A number with an exponent above the least lies at or above the first one with that exponent. -/
theorem le_steps {e : Nat} (h : e < x.exponentField) : fractionLimit * 2 ^ e ≤ x.steps := by
  rw [steps_eq, significand, if_neg (Nat.ne_zero_of_lt h)]
  exact Nat.mul_le_mul (Nat.le_add_right _ _) (Nat.pow_le_pow_right (by decide) (by omega))

theorem exponentField_le_of_steps (h : y.steps ≤ x.steps) : y.exponentField ≤ x.exponentField := by
  refine Nat.le_of_not_lt fun hlt => absurd h (Nat.not_le.mpr ?_)
  exact Nat.lt_of_lt_of_le x.steps_lt (le_steps hlt)

/-- Different magnitudes are different numbers. -/
theorem magnitude_eq_of_steps (h : x.steps = y.steps) : x.magnitude = y.magnitude := by
  have hexponent : x.exponentField = y.exponentField :=
    Nat.le_antisymm (exponentField_le_of_steps (Nat.le_of_eq h))
      (exponentField_le_of_steps (Nat.le_of_eq h.symm))
  have hsignificand : x.significand = y.significand := by
    rw [steps_eq, steps_eq, hexponent] at h
    exact Nat.eq_of_mul_eq_mul_right (Nat.two_pow_pos _) h
  have hfraction : x.fractionField = y.fractionField := by
    simp only [significand, hexponent] at hsignificand
    split at hsignificand
    next => exact hsignificand
    next => exact Nat.add_left_cancel hsignificand
  calc x.magnitude = fractionLimit * x.exponentField + x.fractionField := (Nat.div_add_mod _ _).symm
    _ = fractionLimit * y.exponentField + y.fractionField := by rw [hexponent, hfraction]
    _ = y.magnitude := Nat.div_add_mod _ _

theorem isZero_iff_steps : x.isZero = true ↔ x.steps = 0 := by
  rw [isZero, beq_iff_eq]
  constructor
  · intro h
    simp [steps, significand, exponentField, fractionField, h]
  · intro h
    have hzero : zero.steps = 0 := by decide
    exact magnitude_eq_of_steps (h.trans hzero.symm)

theorem number?_eq_infinite_iff {negative : Bool} :
    x.number? = some (.infinite negative) ↔
      x.magnitude = infinityMagnitude ∧ x.isNegative = negative := by
  rw [number?, isNaN, isInfinite]
  split
  next hnan =>
    simp only [decide_eq_true_eq] at hnan
    simp [Nat.ne_of_gt hnan]
  next => split <;> simp_all

theorem number?_eq_finite_iff {n : Int} :
    x.number? = some (.finite n) ↔
      x.magnitude < infinityMagnitude ∧ (if x.isNegative then -x.steps else x.steps : Int) = n := by
  rw [number?, isNaN, isInfinite]
  split
  next hnan =>
    simp only [decide_eq_true_eq] at hnan
    simp [Nat.not_lt_of_lt hnan]
  next hnan =>
    simp only [decide_eq_true_eq] at hnan
    split
    next hinf => simp [beq_iff_eq.mp hinf]
    next hinf =>
      have hne : x.magnitude ≠ infinityMagnitude := by simpa using hinf
      have hlt : x.magnitude < infinityMagnitude := by omega
      simp [hlt]

theorem number?_of_zero (h : x.isZero = true) : x.number? = some (.finite 0) := by
  have hsteps := isZero_iff_steps.mp h
  rw [isZero, beq_iff_eq] at h
  rw [number?_eq_finite_iff, h, hsteps]
  exact ⟨by decide, ite_self 0⟩

/-- Opposite numbers are equal only if both are zero. -/
theorem steps_eq_zero_of_ne_sign {n : Int} (hsign : x.isNegative ≠ y.isNegative)
    (hx : (if x.isNegative then -x.steps else x.steps : Int) = n)
    (hy : (if y.isNegative then -y.steps else y.steps : Int) = n) : x.steps = 0 ∧ y.steps = 0 := by
  rw [Bool.eq_not_of_ne (Ne.symm hsign)] at hy
  cases hxsign : x.isNegative with
  | false =>
    rw [hxsign] at hx hy
    have hxn : (x.steps : Int) = n := hx
    have hyn : -(y.steps : Int) = n := hy
    omega
  | true =>
    rw [hxsign] at hx hy
    have hxn : -(x.steps : Int) = n := hx
    have hyn : (y.steps : Int) = n := hy
    omega

/-- Doubles that stand for one number are the same, or both are zero. -/
theorem eq_or_isZero_of_number? {n : Number} (hx : x.number? = some n) (hy : y.number? = some n) :
    x = y ∨ x.isZero = true ∧ y.isZero = true := by
  cases n with
  | infinite negative =>
    obtain ⟨hxmagnitude, hxsign⟩ := number?_eq_infinite_iff.mp hx
    obtain ⟨hymagnitude, hysign⟩ := number?_eq_infinite_iff.mp hy
    exact .inl (ext_magnitude (hxsign.trans hysign.symm) (hxmagnitude.trans hymagnitude.symm))
  | finite n =>
    obtain ⟨-, hxn⟩ := number?_eq_finite_iff.mp hx
    obtain ⟨-, hyn⟩ := number?_eq_finite_iff.mp hy
    by_cases hsign : x.isNegative = y.isNegative
    · have hsteps : x.steps = y.steps := by
        have hsame := hxn.trans hyn.symm
        rw [hsign] at hsame
        split at hsame <;> omega
      exact .inl (ext_magnitude hsign (magnitude_eq_of_steps hsteps))
    · obtain ⟨hxzero, hyzero⟩ := steps_eq_zero_of_ne_sign hsign hxn hyn
      exact .inr ⟨isZero_iff_steps.mpr hxzero, isZero_iff_steps.mpr hyzero⟩

theorem isSome_number? : x.number?.isSome = !x.isNaN := by
  cases hnan : x.isNaN <;> simp [number?, hnan]
  split <;> rfl

/-- Equality of doubles is equality of the numbers they stand for. -/
theorem sameNumber_iff_number? :
    x.sameNumber y = true ↔ ∃ n, x.number? = some n ∧ y.number? = some n := by
  simp only [sameNumber, Bool.and_eq_true, Bool.or_eq_true, beq_iff_eq, ← isSome_number?,
    Option.isSome_iff_exists]
  constructor
  · rintro ⟨⟨⟨n, hn⟩, -⟩, rfl | ⟨hx, hy⟩⟩
    · exact ⟨n, hn, hn⟩
    · exact ⟨_, number?_of_zero hx, number?_of_zero hy⟩
  · rintro ⟨n, hx, hy⟩
    exact ⟨⟨⟨n, hx⟩, n, hy⟩, eq_or_isZero_of_number? hx hy⟩

/-- The NaNs are the patterns above the infinities, of either sign. -/
theorem isNaN_iff : x.isNaN = true ↔ ∃ negative payload, 0 < payload ∧ payload < fractionLimit ∧
    x = ofMagnitude negative (infinityMagnitude + payload) := by
  rw [isNaN, decide_eq_true_eq]
  constructor
  · intro h
    have hlt := x.magnitude_lt
    refine ⟨x.isNegative, x.magnitude - infinityMagnitude, by omega, ?_, ?_⟩
    · simp only [infinityMagnitude, signedLimit, fractionLimit] at h hlt ⊢
      omega
    · rw [Nat.add_sub_cancel' (Nat.le_of_lt h), ofMagnitude_magnitude]
  · rintro ⟨negative, payload, hpos, hlt, rfl⟩
    rw [magnitude_ofMagnitude]
    · omega
    · simp only [infinityMagnitude, signedLimit, fractionLimit] at hlt ⊢
      omega

end Binary64

end RowFormat
