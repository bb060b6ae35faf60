import RowFormat.Text.Blank
import RowFormat.Text.Numeral

namespace RowFormat

theorem isBlank_of_isDigit {c : Char} (h : c.isDigit) : isBlank c = false := by
  obtain ⟨hlow, hhigh⟩ := Char.isDigit_iff_toNat.mp h
  simp only [Char.reduceToNat] at hlow hhigh
  simp [isBlank, blankRanges]
  omega

/-- Text without blanks at its ends is not trimmed. -/
theorem trimBlank_eq_self {cs : List Char} (h : ∀ c ∈ cs, isBlank c = false) :
    trimBlank cs = cs := by
  have hkeep {ds : List Char} (hds : ∀ c ∈ ds, isBlank c = false) : ds.dropWhile isBlank = ds := by
    cases ds with
    | nil => rfl
    | cons d ds => rw [List.dropWhile_cons, hds d List.mem_cons_self, if_neg Bool.false_ne_true]
  have hreverse (c : Char) (hc : c ∈ cs.reverse) := h c (List.mem_reverse.mp hc)
  rw [trimBlank, hkeep h, hkeep hreverse, List.reverse_reverse]

namespace Numeral

theorem digit?_of_isDigit {c : Char} (h : c.isDigit) :
    digit? 10 c = some (c.toNat - '0'.toNat) := by
  have hrange : '0' ≤ c ∧ c ≤ '9' := by
    simpa [Char.isDigit, Char.le_def] using h
  obtain ⟨hlow, hhigh⟩ := Char.isDigit_iff_toNat.mp h
  simp only [Char.reduceToNat] at hlow hhigh
  simp only [digit?, if_pos hrange, Char.reduceToNat]
  rw [if_pos (by omega)]

theorem le_ofDigitChars (cs : List Char) (n : Nat) : n ≤ Nat.ofDigitChars 10 cs n := by
  induction cs generalizing n with
  | nil => exact Nat.le_refl n
  | cons c cs ih =>
    have hrest := ih (10 * n + (c.toNat - '0'.toNat))
    rw [Nat.ofDigitChars_cons]
    omega

/-- Digits are read to the end if the number that they make is not too large. -/
theorem readDigits_eq_ok {limit : Nat} {beyond : NumeralError} {cs : List Char} {n : Nat}
    (hcs : ∀ c ∈ cs, c.isDigit) (h : Nat.ofDigitChars 10 cs n ≤ limit) :
    readDigits 10 limit beyond n cs = .ok (Nat.ofDigitChars 10 cs n) := by
  induction cs generalizing n with
  | nil => rfl
  | cons c cs ih =>
    obtain ⟨hc, hrest⟩ := List.forall_mem_cons.mp hcs
    rw [Nat.ofDigitChars_cons] at h ⊢
    have hle := le_ofDigitChars cs (10 * n + (c.toNat - '0'.toNat))
    rw [readDigits, digit?_of_isDigit hc]
    simp only
    rw [if_pos (Nat.le_trans hle h)]
    exact ih hrest h

theorem toDigits_isDigit {n : Nat} {c : Char} (h : c ∈ Nat.toDigits 10 n) : c.isDigit :=
  Nat.isDigit_of_mem_toDigits (by decide) (by decide) h

theorem readSome_toDigits {limit : Nat} {beyond : NumeralError} {n : Nat} (h : n ≤ limit) :
    readSome 10 limit beyond (Nat.toDigits 10 n) = .ok n := by
  have hvalue : Nat.ofDigitChars 10 (Nat.toDigits 10 n) 0 = n :=
    Nat.ofDigitChars_toDigits (by decide) (by decide)
  rw [readSome, if_neg (by simp [Nat.toDigits_ne_nil]),
    readDigits_eq_ok (fun c hc => toDigits_isDigit hc) (by omega), hvalue]

theorem readInt64_of_isDigit {cs : List Char} (h : ∀ c ∈ cs, c.isDigit) (hne : cs ≠ []) :
    readInt64 cs = (readSome 10 (signedLimit - 1) .tooLarge cs).map fun n => Int64.ofInt n := by
  unfold readInt64
  split
  next => exact absurd rfl hne
  next => exact absurd (h '-' List.mem_cons_self) (by decide)
  next => exact absurd (h '+' List.mem_cons_self) (by decide)
  next => rfl

/-- The decimal text of a signed word. -/
def decimal (n : Int64) : List Char := (toString n.toInt).toList

theorem decimal_eq (n : Int64) :
    decimal n = if 0 ≤ n.toInt then Nat.toDigits 10 n.toInt.toNat
      else '-' :: Nat.toDigits 10 (-n.toInt).toNat := by
  rw [decimal, Int.toString_eq_repr, Int.repr_eq_if]
  split
  next => exact Nat.toList_repr
  next => simp [String.toList_append, Nat.toList_repr]

theorem readInt64_decimal (n : Int64) : readInt64 (decimal n) = .ok n := by
  have hlow := Int64.le_toInt n
  have hhigh := Int64.toInt_lt n
  rw [decimal_eq]
  split
  next hsign =>
    have hfit : n.toInt.toNat ≤ signedLimit - 1 := by
      simp only [signedLimit]
      omega
    rw [readInt64_of_isDigit (fun c hc => toDigits_isDigit hc) Nat.toDigits_ne_nil,
      readSome_toDigits hfit]
    simp only [bind, Except.bind, pure, Except.pure, Except.map, Int.toNat_of_nonneg hsign,
      Int64.ofInt_toInt]
  next hsign =>
    have hfit : (-n.toInt).toNat ≤ signedLimit := by
      simp only [signedLimit]
      omega
    have hvalue : -((-n.toInt).toNat : Int) = n.toInt := by omega
    rw [readInt64, readSome_toDigits hfit]
    simp only [bind, Except.bind, pure, Except.pure, Except.map, hvalue, Int64.ofInt_toInt]

/-- The text of a signed word has no blanks to trim. -/
theorem readInt64_trimBlank_decimal (n : Int64) : readInt64 (trimBlank (decimal n)) = .ok n := by
  have hkeep (c : Char) (hc : c ∈ decimal n) : isBlank c = false := by
    rw [decimal_eq] at hc
    split at hc
    next => exact isBlank_of_isDigit (toDigits_isDigit hc)
    next =>
      rcases List.mem_cons.mp hc with rfl | hc
      · decide
      · exact isBlank_of_isDigit (toDigits_isDigit hc)
  rw [trimBlank_eq_self hkeep, readInt64_decimal]

end Numeral

end RowFormat
