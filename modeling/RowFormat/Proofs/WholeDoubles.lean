import RowFormat.Binary64.Text
import RowFormat.Proofs.Decimals
import Mathlib.Algebra.Order.Ring.Int
import Mathlib.Data.List.TakeWhile

namespace RowFormat

namespace Binary64

/-- At a whole number the doubles lie two to this power apart, if not closer. -/
def grain (m : Nat) : Nat := m.log2 - 52

/-- Integers that are doubles: 53 binary digits with zeros behind them. -/
def IsWhole (n : Int) : Prop := ∃ (q : Int) (k : Nat), q.natAbs < 2 ^ 53 ∧ n = q * 2 ^ k

/-- A double that no other is nearer to an integer than. If another one is as near, it is an even
multiple of the distance between the two. -/
structure IsNearest (n w : Int) : Prop where
  whole : IsWhole w
  nearest {v : Int} (h : IsWhole v) : (w - n).natAbs ≤ (v - n).natAbs
  even {v : Int} (h : IsWhole v) (hne : v ≠ w) (htie : (v - n).natAbs = (w - n).natAbs) :
    2 * (v - w) ∣ w

section Quotients

variable {num den : Nat}

theorem roundQuotient_cases (num den : Nat) :
    roundQuotient num den = num / den ∨ roundQuotient num den = num / den + 1 := by
  unfold roundQuotient
  simp only
  split
  next => exact .inl rfl
  next => exact .inr rfl

/-- A quotient is rounded by half of the divisor at most, and to the even side if it is just half. -/
theorem roundQuotient_nearest (num : Nat) (hden : 0 < den) :
    2 * (((roundQuotient num den * den : Nat) : Int) - num).natAbs ≤ den ∧
      (2 * (((roundQuotient num den * den : Nat) : Int) - num).natAbs = den →
        roundQuotient num den % 2 = 0) := by
  have hsplit := Nat.div_add_mod num den
  have hmod := Nat.mod_lt num hden
  rw [Nat.mul_comm] at hsplit
  unfold roundQuotient
  simp only
  split
  next h => omega
  next h =>
    rw [Nat.add_mul, Nat.one_mul]
    omega

theorem roundQuotient_of_dvd (h : den ∣ num) (hden : 0 < den) : roundQuotient num den = num / den := by
  unfold roundQuotient
  simp only [Nat.mod_eq_zero_of_dvd h]
  rw [if_pos (.inl (by omega))]

end Quotients

/-- A finite number with a sign. -/
structure IsFinite (x : Binary64) (negative : Bool) : Prop where
  isNaN : x.isNaN = false
  isInfinite : x.isInfinite = false
  isNegative : x.isNegative = negative

/-- The fields of a number with a leading digit: the exponent field counts from one, and the fraction
field leaves that digit out. -/
theorem fields_ofMagnitude (negative : Bool) {e q : Nat} (hlow : fractionLimit ≤ q)
    (hhigh : q < 2 * fractionLimit) (he : e < 2046) :
    (ofMagnitude negative (e * fractionLimit + q)).IsFinite negative ∧
      (ofMagnitude negative (e * fractionLimit + q)).exponent = (e : Int) - 1074 ∧
      (ofMagnitude negative (e * fractionLimit + q)).significand = q := by
  simp only [fractionLimit] at hlow hhigh
  have hbits : (ofMagnitude negative (e * fractionLimit + q)).bits.toNat =
      (if negative then signedLimit else 0) + (e * fractionLimit + q) := by
    rw [ofMagnitude, UInt64.toNat_ofNat', Nat.mod_eq_of_lt]
    · split <;> omega
    · simp only [fractionLimit, signedLimit]
      split <;> omega
  have hmagnitude : (ofMagnitude negative (e * fractionLimit + q)).magnitude =
      e * fractionLimit + q := by
    rw [magnitude, hbits]
    simp only [fractionLimit, signedLimit]
    split <;> omega
  have hexponent : (ofMagnitude negative (e * fractionLimit + q)).exponentField = e + 1 := by
    rw [exponentField, hmagnitude]
    simp only [fractionLimit]
    omega
  have hfraction : (ofMagnitude negative (e * fractionLimit + q)).fractionField =
      q - fractionLimit := by
    rw [fractionField, hmagnitude]
    simp only [fractionLimit]
    omega
  have hfinite : e * fractionLimit + q < infinityMagnitude := by
    simp only [infinityMagnitude, fractionLimit]
    omega
  refine ⟨⟨?_, ?_, ?_⟩, ?_, ?_⟩
  · rw [isNaN, hmagnitude]
    exact decide_eq_false (Nat.lt_asymm hfinite)
  · rw [isInfinite, hmagnitude]
    exact beq_false_of_ne (Nat.ne_of_lt hfinite)
  · rw [isNegative, hbits]
    cases negative with
    | true => simp
    | false =>
      simp only [Bool.false_eq_true, if_false, fractionLimit, signedLimit, decide_eq_false_iff_not]
      omega
  · rw [exponent, hexponent]
    omega
  · rw [significand, hexponent, hfraction, if_neg (Nat.succ_ne_zero e)]
    simp only [fractionLimit]
    omega

theorem carry_magnitude (e : Nat) :
    e * fractionLimit + 2 * fractionLimit = (e + 1) * fractionLimit + fractionLimit := by
  rw [Nat.add_mul, Nat.one_mul, Nat.two_mul, Nat.add_assoc]

/-- What a magnitude is worth, with or without a carry in its significand. -/
theorem floorAbs_ofMagnitude (negative : Bool) {e q : Nat} (hlow : fractionLimit ≤ q)
    (hhigh : q ≤ 2 * fractionLimit) (he : e < 2045) :
    (ofMagnitude negative (e * fractionLimit + q)).IsFinite negative ∧
      (ofMagnitude negative (e * fractionLimit + q)).floorAbs =
        q * 2 ^ (e - 1074) / 2 ^ (1074 - e) := by
  have hshift {x : Binary64} {q' e' : Nat} (hexponent : x.exponent = (e' : Int) - 1074)
      (hsignificand : x.significand = q') : x.floorAbs = q' * 2 ^ (e' - 1074) / 2 ^ (1074 - e') := by
    have hup : x.exponent.toNat = e' - 1074 := by omega
    have hdown : (-x.exponent).toNat = 1074 - e' := by omega
    rw [floorAbs, hup, hdown, hsignificand, Nat.shiftLeft_eq, Nat.shiftRight_eq_div_pow]
  rcases Nat.lt_or_eq_of_le hhigh with hlt | rfl
  · obtain ⟨hfinite, hexponent, hsignificand⟩ :=
      fields_ofMagnitude negative hlow hlt (Nat.lt_succ_of_lt he)
    exact ⟨hfinite, hshift hexponent hsignificand⟩
  -- A carry is the leading digit of the next power of two.
  · rw [carry_magnitude]
    obtain ⟨hfinite, hexponent, hsignificand⟩ :=
      fields_ofMagnitude negative (Nat.le_refl fractionLimit)
        (show fractionLimit < 2 * fractionLimit by decide) (Nat.succ_lt_succ he)
    refine ⟨hfinite, ?_⟩
    rw [hshift hexponent hsignificand]
    by_cases hwhole : 1074 ≤ e
    · rw [Nat.sub_eq_zero_of_le hwhole, Nat.sub_eq_zero_of_le (Nat.le_succ_of_le hwhole),
        Nat.succ_sub hwhole, Nat.pow_succ', ← Nat.mul_assoc, Nat.mul_comm fractionLimit 2]
    · have hdown : 1074 - e = 1074 - (e + 1) + 1 := by omega
      rw [hdown, Nat.pow_succ', Nat.sub_eq_zero_of_le (show e + 1 ≤ 1074 by omega),
        Nat.sub_eq_zero_of_le (show e ≤ 1074 by omega), Nat.mul_assoc,
        Nat.mul_div_mul_left _ _ (by decide)]

theorem roundQuotient_grain_le (m : Nat) : roundQuotient m (2 ^ grain m) ≤ 2 ^ 53 := by
  have hlog : m < 2 ^ 53 * 2 ^ grain m := by
    refine Nat.lt_of_lt_of_le Nat.lt_log2_self ?_
    rw [← Nat.pow_add]
    exact Nat.pow_le_pow_right (by decide) (by unfold grain; omega)
  have hfloor := (Nat.div_lt_iff_lt_mul (Nat.two_pow_pos _)).mpr hlog
  rcases roundQuotient_cases m (2 ^ grain m) with hq | hq <;> omega

/-- The whole number that the double nearest to a whole number is. -/
def nearestWhole (m : Nat) : Nat := roundQuotient m (2 ^ grain m) * 2 ^ grain m

theorem nearestWhole_of_dvd {m : Nat} (h : 2 ^ grain m ∣ m) : nearestWhole m = m := by
  rw [nearestWhole, roundQuotient_of_dvd h (Nat.two_pow_pos _), Nat.div_mul_cancel h]

/-- The significand of a whole number: it is scaled up to 53 digits, or rounded to as many. -/
def wholeSignificand (m : Nat) : Nat := roundQuotient (m * 2 ^ (52 - m.log2)) (2 ^ (m.log2 - 52))

theorem wholeSignificand_bounds {m : Nat} (h : m ≠ 0) :
    fractionLimit ≤ wholeSignificand m ∧ wholeSignificand m ≤ 2 * fractionLimit := by
  have hpow : 2 ^ m.log2 * 2 ^ (52 - m.log2) = fractionLimit * 2 ^ (m.log2 - 52) := by
    rw [show fractionLimit = 2 ^ 52 from rfl, ← Nat.pow_add, ← Nat.pow_add]
    congr 1
    omega
  have hlow : fractionLimit * 2 ^ (m.log2 - 52) ≤ m * 2 ^ (52 - m.log2) :=
    hpow ▸ Nat.mul_le_mul_right _ (Nat.log2_self_le h)
  have hhigh : m * 2 ^ (52 - m.log2) < 2 * fractionLimit * 2 ^ (m.log2 - 52) := by
    rw [Nat.mul_assoc, ← hpow, ← Nat.mul_assoc, ← Nat.pow_succ']
    exact Nat.mul_lt_mul_of_pos_right Nat.lt_log2_self (Nat.two_pow_pos _)
  have hfloor := (Nat.le_div_iff_mul_le (Nat.two_pow_pos _)).mpr hlow
  have hceil := (Nat.div_lt_iff_lt_mul (Nat.two_pow_pos _)).mpr hhigh
  unfold wholeSignificand
  rcases roundQuotient_cases (m * 2 ^ (52 - m.log2)) (2 ^ (m.log2 - 52)) with hq | hq
  · rw [hq]
    exact ⟨hfloor, Nat.le_of_lt hceil⟩
  · rw [hq]
    exact ⟨Nat.le_succ_of_le hfloor, hceil⟩

/-- Small whole numbers are what they were; the digits of a large one that do not fit are zeros. -/
theorem wholeSignificand_shifted (m : Nat) :
    wholeSignificand m * 2 ^ (m.log2 - 52) / 2 ^ (52 - m.log2) = nearestWhole m := by
  unfold wholeSignificand nearestWhole grain
  by_cases h : 52 ≤ m.log2
  · rw [Nat.sub_eq_zero_of_le h]
    simp
  · have hone (k : Nat) : roundQuotient k 1 = k :=
      (roundQuotient_of_dvd (Nat.one_dvd k) Nat.one_pos).trans (Nat.div_one k)
    have hgrain : m.log2 - 52 = 0 := by omega
    rw [hgrain, Nat.pow_zero, Nat.mul_one, Nat.mul_one, hone, hone,
      Nat.mul_div_cancel _ (Nat.two_pow_pos _)]

theorem magnitudeOfQuotient_whole {m : Nat} (h : m ≠ 0) (hlog : m.log2 ≤ 63) :
    magnitudeOfQuotient m 1 = (m.log2 + 1022) * fractionLimit + wholeSignificand m := by
  have hbounds := wholeSignificand_bounds h
  have hquotient : logQuotient m 1 = m.log2 := by
    have hone : Nat.log2 1 = 0 := by decide
    have hlow : 2 ^ m.log2 ≤ m := Nat.log2_self_le h
    have hguess : (m.log2 : Int) - (0 : Nat) = m.log2 := by omega
    have hdown : (-(m.log2 : Int)).toNat = 0 := by omega
    simp only [logQuotient, hone, hguess, Int.toNat_natCast, hdown, Nat.shiftLeft_eq, Nat.one_mul,
      Nat.pow_zero, Nat.mul_one, if_pos hlow]
  have hup : (max ((m.log2 : Int) - 52) (-1074)).toNat = m.log2 - 52 := by omega
  have hdown : (-max ((m.log2 : Int) - 52) (-1074)).toNat = 52 - m.log2 := by omega
  have hfield : (max ((m.log2 : Int) - 52) (-1074) + 1074).toNat = m.log2 + 1022 := by omega
  simp only [magnitudeOfQuotient, if_neg h, hquotient, hup, hdown, hfield, Nat.shiftLeft_eq,
    Nat.one_mul]
  apply Nat.min_eq_right
  simp only [infinityMagnitude, fractionLimit] at hbounds ⊢
  exact Nat.le_trans (Nat.add_le_add_left hbounds.2 _) (by omega)

/-- A whole number is read as the double nearest to it. -/
theorem ofDecimal_whole (negative : Bool) {m : Nat} (hm : m ≤ signedLimit) :
    (ofDecimal negative m 0).IsFinite negative ∧
      (ofDecimal negative m 0).floorAbs = nearestWhole m := by
  by_cases h : m = 0
  · subst h
    cases negative <;> exact ⟨⟨by decide, by decide, by decide⟩, by decide⟩
  · have hlog : m.log2 ≤ 63 := by
      have hlt : m < 2 ^ 64 := Nat.lt_of_le_of_lt hm (by decide)
      exact Nat.le_of_lt_succ ((Nat.log2_lt h).mpr hlt)
    have hmagnitude : ofDecimal negative m 0 =
        ofMagnitude negative ((m.log2 + 1022) * fractionLimit + wholeSignificand m) := by
      have hlarge : ¬((m.log2 : Int) + 3 * 0 > 1100 ∧ (0 : Int) ≤ 0) := by omega
      have hsmall : ¬((m.log2 : Int) + 1 + 3 * 0 < -1100 ∧ (0 : Int) ≤ 0) := by omega
      simp only [ofDecimal, if_neg h, if_neg hlarge, if_neg hsmall]
      congr 1
      simpa using magnitudeOfQuotient_whole h hlog
    obtain ⟨hlow, hhigh⟩ := wholeSignificand_bounds h
    obtain ⟨hfinite, hfloor⟩ := floorAbs_ofMagnitude negative hlow hhigh
      (show m.log2 + 1022 < 2045 by omega)
    rw [hmagnitude]
    refine ⟨hfinite, hfloor.trans ?_⟩
    have hup : m.log2 + 1022 - 1074 = m.log2 - 52 := Nat.add_sub_add_right m.log2 1022 52
    have hdown : 1074 - (m.log2 + 1022) = 52 - m.log2 := Nat.add_sub_add_right 52 1022 m.log2
    rw [hup, hdown, wholeSignificand_shifted]

theorem nearestWhole_le {m : Nat} (hm : m ≤ signedLimit) : nearestWhole m ≤ signedLimit := by
  rcases Nat.lt_or_eq_of_le hm with hlt | rfl
  · by_cases h : m = 0
    · subst h
      decide
    · have hlog : m.log2 < 63 := (Nat.log2_lt h).mpr hlt
      have hscale : 2 ^ (m.log2 - 52) ≤ 2 ^ 10 := Nat.pow_le_pow_right (by decide) (by omega)
      rw [← wholeSignificand_shifted]
      calc wholeSignificand m * 2 ^ (m.log2 - 52) / 2 ^ (52 - m.log2)
          ≤ wholeSignificand m * 2 ^ (m.log2 - 52) := Nat.div_le_self _ _
        _ ≤ 2 * fractionLimit * 2 ^ 10 := Nat.mul_le_mul (wholeSignificand_bounds h).2 hscale
        _ = signedLimit := by decide
  · exact Nat.le_of_eq (nearestWhole_of_dvd (by decide))

/-- The integer that the double nearest to an integer is. -/
def nearestInt (n : Int) : Int := if n < 0 then -nearestWhole n.natAbs else nearestWhole n.natAbs

/-- Among the integers between two powers of two, a double has as many zeros at its end as they have
digits beyond the first 53. -/
theorem isWhole_cases {v : Int} (h : IsWhole v) (n : Int) :
    (2 ^ grain n.natAbs : Int) ∣ v ∨ v.natAbs < 2 ^ n.natAbs.log2 ∧ 52 ≤ n.natAbs.log2 := by
  obtain ⟨q, k, hq, rfl⟩ := h
  by_cases hk : grain n.natAbs ≤ k
  · exact .inl (Int.dvd_mul_of_dvd_right (pow_dvd_pow 2 hk))
  · right
    have hlog : 53 + k ≤ n.natAbs.log2 := by
      unfold grain at hk
      omega
    refine ⟨?_, by omega⟩
    calc (q * 2 ^ k).natAbs = q.natAbs * 2 ^ k := by rw [Int.natAbs_mul, Int.natAbs_pow]; rfl
      _ < 2 ^ 53 * 2 ^ k := Nat.mul_lt_mul_of_pos_right hq (Nat.two_pow_pos k)
      _ = 2 ^ (53 + k) := (Nat.pow_add 2 53 k).symm
      _ ≤ 2 ^ n.natAbs.log2 := Nat.pow_le_pow_right (by decide) hlog

theorem le_natAbs_sub_of_dvd {g : Nat} {v w : Int} (hv : (2 ^ g : Int) ∣ v) (hw : (2 ^ g : Int) ∣ w)
    (hne : v ≠ w) : 2 ^ g ≤ (v - w).natAbs := by
  have hdvd : 2 ^ g ∣ (v - w).natAbs := by
    have hsub := Int.natAbs_dvd_natAbs.mpr (Int.dvd_sub hv hw)
    rw [Int.natAbs_pow] at hsub
    exact hsub
  exact Nat.le_of_dvd (by omega) hdvd

section Nearest

variable {n q : Int} (herror : 2 * (q * 2 ^ grain n.natAbs - n).natAbs ≤ 2 ^ grain n.natAbs)

include herror

theorem natAbs_sub_le_of_dvd {v : Int} (hv : (2 ^ grain n.natAbs : Int) ∣ v) :
    (q * 2 ^ grain n.natAbs - n).natAbs ≤ (v - n).natAbs := by
  by_cases hne : v = q * 2 ^ grain n.natAbs
  · rw [hne]
  · have hfar := le_natAbs_sub_of_dvd hv (Int.dvd_mul_left q (2 ^ grain n.natAbs)) hne
    omega

/-- Below the power of two that an integer begins with, the doubles are farther away than that power. -/
theorem natAbs_sub_lt_of_lt {v : Int} (hv : v.natAbs < 2 ^ n.natAbs.log2)
    (hlog : 52 ≤ n.natAbs.log2) : (q * 2 ^ grain n.natAbs - n).natAbs < (v - n).natAbs := by
  have hne : n.natAbs ≠ 0 := by
    intro hzero
    rw [hzero] at hlog
    exact absurd hlog (by decide)
  have hfirst : 2 ^ n.natAbs.log2 ≤ n.natAbs := Nat.log2_self_le hne
  have hgrain : (2 ^ grain n.natAbs : Int) ∣ 2 ^ n.natAbs.log2 :=
    pow_dvd_pow 2 (by unfold grain; omega)
  have hcast : ((2 ^ n.natAbs.log2 : Nat) : Int) = 2 ^ n.natAbs.log2 := by push_cast; rfl
  rcases Int.lt_or_le n 0 with hneg | hpos
  · have hle := natAbs_sub_le_of_dvd herror (Int.dvd_neg.mpr hgrain)
    omega
  · have hle := natAbs_sub_le_of_dvd herror hgrain
    omega

/-- A multiple of the grain is nearest if it is not farther away than half of it. -/
theorem isNearest_of_error (hq : q.natAbs ≤ 2 ^ 53)
    (htie : 2 * (q * 2 ^ grain n.natAbs - n).natAbs = 2 ^ grain n.natAbs → q % 2 = 0) :
    IsNearest n (q * 2 ^ grain n.natAbs) where
  whole := by
    rcases Nat.lt_or_eq_of_le hq with hlt | heq
    · exact ⟨q, _, hlt, rfl⟩
    · have heven : q = q / 2 * 2 := by omega
      refine ⟨q / 2, grain n.natAbs + 1, by omega, ?_⟩
      rw [Int.pow_succ', ← Int.mul_assoc, ← heven]
  nearest {v} h := by
    rcases isWhole_cases h n with hdvd | ⟨hlt, hlog⟩
    · exact natAbs_sub_le_of_dvd herror hdvd
    · exact Nat.le_of_lt (natAbs_sub_lt_of_lt herror hlt hlog)
  even {v} h hne hsame := by
    rcases isWhole_cases h n with hdvd | ⟨hlt, hlog⟩
    · have hfar := le_natAbs_sub_of_dvd hdvd (Int.dvd_mul_left q (2 ^ grain n.natAbs)) hne
      obtain ⟨k, hk⟩ : (2 : Int) ∣ q := Int.dvd_of_emod_eq_zero (htie (by omega))
      -- The other one lies on the other side of the integer, just one grain away.
      have hgrain : (v - q * 2 ^ grain n.natAbs).natAbs = 2 ^ grain n.natAbs := by omega
      have hstep : v - q * 2 ^ grain n.natAbs ∣ 2 ^ grain n.natAbs :=
        Int.natAbs_dvd_natAbs.mp (by rw [hgrain, Int.natAbs_pow]; rfl)
      have heven : q * 2 ^ grain n.natAbs = 2 * 2 ^ grain n.natAbs * k := by
        rw [Int.mul_right_comm, ← hk]
      exact (Int.mul_dvd_mul_left 2 hstep).trans ⟨k, heven⟩
    · exact absurd hsame (Nat.ne_of_gt (natAbs_sub_lt_of_lt herror hlt hlog))

end Nearest

theorem isNearest_nearestInt (n : Int) : IsNearest n (nearestInt n) := by
  obtain ⟨herror, htie⟩ := roundQuotient_nearest n.natAbs (Nat.two_pow_pos (grain n.natAbs))
  have hq := roundQuotient_grain_le n.natAbs
  have hcast : ((roundQuotient n.natAbs (2 ^ grain n.natAbs) * 2 ^ grain n.natAbs : Nat) : Int) =
      roundQuotient n.natAbs (2 ^ grain n.natAbs) * 2 ^ grain n.natAbs := by
    push_cast
    rfl
  unfold nearestInt nearestWhole
  split
  next h =>
    rw [hcast] at herror htie ⊢
    rw [← Int.neg_mul]
    have hsame : (-(roundQuotient n.natAbs (2 ^ grain n.natAbs) : Int) * 2 ^ grain n.natAbs -
        n).natAbs = ((roundQuotient n.natAbs (2 ^ grain n.natAbs) : Int) * 2 ^ grain n.natAbs -
          n.natAbs).natAbs := by
      rw [Int.neg_mul]
      omega
    refine isNearest_of_error (hsame ▸ herror) (by omega) fun htwice => ?_
    have heven := htie (hsame ▸ htwice)
    omega
  next h =>
    have hsame : (n.natAbs : Int) = n := by omega
    rw [hcast] at herror htie ⊢
    rw [hsame] at herror htie
    refine isNearest_of_error herror (by omega) fun htwice => ?_
    have heven := htie htwice
    omega

/-- A whole number in the range of signed words is read as a double and truncated: the result is the
nearest number that a double can be, except that the range has no room for its own limit. -/
theorem truncate_ofDecimal {n : Int} (hlow : -signedLimit ≤ n) (hhigh : n < signedLimit) :
    ((ofDecimal (n < 0) n.natAbs 0).truncate).toInt = min ((signedLimit : Int) - 1) (nearestInt n) := by
  have hm : n.natAbs ≤ signedLimit := by
    simp only [signedLimit] at hlow hhigh ⊢
    omega
  obtain ⟨hfinite, hfloor⟩ := ofDecimal_whole (n < 0) hm
  have hle := nearestWhole_le hm
  have hwhole : (if (ofDecimal (n < 0) n.natAbs 0).isNegative then -(nearestWhole n.natAbs : Int)
      else nearestWhole n.natAbs) = nearestInt n := by
    rw [hfinite.isNegative, nearestInt]
    simp only [decide_eq_true_eq]
  have hrange : -(signedLimit : Int) ≤ nearestInt n := by
    unfold nearestInt
    simp only [signedLimit] at hle ⊢
    split <;> omega
  simp only [truncate, hfinite.isNaN, hfinite.isInfinite, Bool.false_eq_true, if_false, hfloor, hwhole]
  have hclamp : max (-(signedLimit : Int)) (min ((signedLimit : Int) - 1) (nearestInt n)) =
      min ((signedLimit : Int) - 1) (nearestInt n) := by
    simp only [signedLimit] at hrange ⊢
    omega
  rw [hclamp]
  apply Int64.toInt_ofInt_of_le
  · simp only [signedLimit] at hrange ⊢
    omega
  · simp only [signedLimit] at hrange ⊢
    omega

/-- An integer is the nearest double to itself iff it is one. -/
theorem nearestInt_eq_iff (n : Int) : nearestInt n = n ↔ IsWhole n := by
  have hnearest := isNearest_nearestInt n
  constructor
  · intro h
    exact h ▸ hnearest.whole
  · intro h
    have hle := hnearest.nearest h
    omega

theorem readUnsigned_toDigits (negative : Bool) (m : Nat) :
    readUnsigned negative (Nat.toDigits 10 m) = .ok (ofDecimal negative m 0) := by
  have hdigits (c : Char) (hc : c ∈ Nat.toDigits 10 m) : c.isDigit := Numeral.toDigits_isDigit hc
  have hall : (Nat.toDigits 10 m).takeWhile Char.isDigit = Nat.toDigits 10 m :=
    List.takeWhile_eq_self_iff.mpr hdigits
  have hrest : (Nat.toDigits 10 m).dropWhile Char.isDigit = [] :=
    List.dropWhile_eq_nil_iff.mpr hdigits
  have hvalue : digitsValue (Nat.toDigits 10 m) = m :=
    Nat.ofDigitChars_toDigits (by decide) (by decide)
  have hread : readDecimal (Nat.toDigits 10 m) = some ⟨m, 0⟩ := by
    simp [readDecimal, hall, hrest, hvalue, Nat.toDigits_ne_nil]
  rw [readUnsigned, hread]

theorem read_decimal (n : Int64) :
    Binary64.read (Numeral.decimal n) = .ok (ofDecimal (n.toInt < 0) n.toInt.natAbs 0) := by
  rw [Numeral.decimal_eq]
  split
  next h =>
    have hsign : ¬n.toInt < 0 := by omega
    have hsize : n.toInt.toNat = n.toInt.natAbs := by omega
    rw [hsize, decide_eq_false hsign]
    obtain ⟨first, cs, hcs⟩ := List.exists_cons_of_ne_nil
      (Nat.toDigits_ne_nil (n := n.toInt.natAbs) (b := 10))
    have hfirst : first.isDigit := Numeral.toDigits_isDigit (hcs ▸ List.mem_cons_self)
    have hread := readUnsigned_toDigits false n.toInt.natAbs
    rw [hcs] at hread ⊢
    unfold Binary64.read
    split
    next heq => cases heq
    next heq =>
      cases heq
      cases hfirst
    next heq =>
      cases heq
      cases hfirst
    next => exact hread
  next h =>
    have hsign : n.toInt < 0 := by omega
    have hsize : (-n.toInt).toNat = n.toInt.natAbs := by omega
    rw [hsize, decide_eq_true hsign]
    exact readUnsigned_toDigits true n.toInt.natAbs

end Binary64

end RowFormat
