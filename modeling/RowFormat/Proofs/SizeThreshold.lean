import Mathlib.Data.Nat.Find
import RowFormat.Proofs.SizeGrowth

namespace RowFormat

namespace Schema

theorem window_window {smaller larger : Nat} (h : smaller ≤ larger) (data : ByteArray) :
    window (window data larger) smaller = window data smaller := by
  have hmin : min smaller larger = smaller := Nat.min_eq_left h
  simp only [window, ByteArray.extract_extract, Nat.zero_add, hmin]

/-- What lies behind the capacity is not looked at. -/
theorem rowSize?_window (s : Schema) (data : ByteArray) (capacity : Nat) :
    s.rowSize? (window data capacity) capacity = s.rowSize? data capacity := by
  have hidem := window_window (Nat.le_refl capacity) data
  by_cases hoption : s.isOption
  · match s, hoption with
    | .option inner, _ => simp only [rowSize?, hidem]
  · have hplain : s.isOption = false := by simpa using hoption
    rw [rowSize?_of_not_isOption hplain, rowSize?_of_not_isOption hplain, hidem]

theorem rowSize?_le {s : Schema} {data : ByteArray} {capacity n : Nat}
    (h : s.rowSize? data capacity = some n) : n ≤ capacity := by
  by_cases hoption : s.isOption
  · match s, hoption with
    | .option inner, _ => exact (rowSize?_option_eq_some_iff.mp h).1
  · rw [rowSize?_of_not_isOption (by simpa using hoption)] at h
    split at h
    next => exact Option.some.inj h ▸ Nat.zero_le capacity
    next => exact (plainSize?_eq_some_iff.mp h).1

/-- Whatever capacity a row is found to fit, it is found to have the same size. -/
theorem rowSize?_mono {s : Schema} {data : ByteArray} {capacity larger n : Nat}
    (h : s.rowSize? data capacity = some n) (hle : capacity ≤ larger) :
    s.rowSize? data larger = some n := by
  have hgrown := rowSize?_append h hle (data.extract capacity data.size)
  have hdata : window data capacity ++ data.extract capacity data.size = data := by
    rw [window, ByteArray.extract_append_extract]
    simp
  rwa [hdata] at hgrown

theorem rowSize?_eq_none_of_lt {s : Schema} {data : ByteArray} {capacity smaller n : Nat}
    (h : s.rowSize? data capacity = some n) (hlt : smaller < n) :
    s.rowSize? data smaller = none := by
  cases hsmall : s.rowSize? data smaller with
  | none => rfl
  | some m =>
    have hfit := rowSize?_le hsmall
    have hcapacity := rowSize?_le h
    have hsame := rowSize?_mono hsmall (show smaller ≤ capacity by omega)
    obtain rfl := Option.some.inj (h.symm.trans hsame)
    omega

/-- The least capacity under which a row has a size. -/
theorem rowSize?_exists_threshold {s : Schema} {data : ByteArray} {capacity n : Nat}
    (h : s.rowSize? data capacity = some n) :
    ∃ threshold, n ≤ threshold ∧ threshold ≤ capacity ∧
      ∀ c, s.rowSize? data c = if threshold ≤ c then some n else none := by
  have hexists : ∃ c, s.rowSize? data c = some n := ⟨capacity, h⟩
  have hleast := Nat.find_spec hexists
  refine ⟨Nat.find hexists, rowSize?_le hleast, Nat.find_min' hexists h, fun c => ?_⟩
  split
  next hc => exact rowSize?_mono hleast hc
  next hc =>
    cases hsize : s.rowSize? data c with
    | none => rfl
    | some m =>
      have hsame := rowSize?_mono hsize (show c ≤ Nat.find hexists by omega)
      obtain rfl := Option.some.inj (hleast.symm.trans hsame)
      exact absurd (Nat.find_min' hexists hsize) hc

/-- A size fits the capacity, does not change when the buffer or the capacity grow, and is lost when
either is cut off inside the row. So each buffer has one size, from one capacity on. -/
theorem rowSize?_bounded_stable {s : Schema} {data : ByteArray} {capacity n : Nat}
    (h : s.rowSize? data capacity = some n) :
    n ≤ capacity ∧
      (∀ larger suf, capacity ≤ larger →
        s.rowSize? (window data capacity ++ suf) larger = some n) ∧
      (∀ smaller < n, s.rowSize? data smaller = none ∧
        s.rowSize? (window data smaller) smaller = none) ∧
      ∃ threshold, n ≤ threshold ∧ threshold ≤ capacity ∧
        ∀ c, s.rowSize? data c = if threshold ≤ c then some n else none := by
  refine ⟨rowSize?_le h, fun larger suf hle => rowSize?_append h hle suf, fun smaller hlt => ?_,
    rowSize?_exists_threshold h⟩
  rw [rowSize?_window]
  exact ⟨rowSize?_eq_none_of_lt h hlt, rowSize?_eq_none_of_lt h hlt⟩

/-- A row of one text, `hi`, that lies right behind the bytes that the row declares as its own. -/
def strayText : ByteArray :=
  ⟨#[16, 0, 0, 0, 3, 0, 0, 0, 0, 0, 0, 0, 0, 0, 0, 0, 104, 105, 0]⟩

/-- Such a row, made nullable, takes 24 bytes but needs a capacity of 27. -/
def nullableStrayText : ByteArray := ⟨#[0, 0, 0, 0, 0, 0, 0, 0]⟩ ++ strayText

theorem rowSize?_bounded_stable_nullableStrayText :
    (option str).rowSize? nullableStrayText 30 = some 24 ∧
      24 ≤ 30 ∧
      (∀ larger suf, 30 ≤ larger →
        (option str).rowSize? (window nullableStrayText 30 ++ suf) larger = some 24) ∧
      (∀ smaller < 24, (option str).rowSize? nullableStrayText smaller = none ∧
        (option str).rowSize? (window nullableStrayText smaller) smaller = none) ∧
      ∃ threshold, 24 ≤ threshold ∧ threshold ≤ 30 ∧
        ∀ c, (option str).rowSize? nullableStrayText c = if threshold ≤ c then some 24 else none := by
  have hsize : (option str).rowSize? nullableStrayText 30 = some 24 := by rfl
  exact ⟨hsize, rowSize?_bounded_stable hsize⟩

end Schema

end RowFormat
