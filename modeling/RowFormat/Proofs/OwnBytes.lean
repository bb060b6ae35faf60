import RowFormat.Proofs.CutOff
import RowFormat.Proofs.Leaves
import RowFormat.Proofs.SizeThreshold

namespace RowFormat

namespace Schema

theorem lengthAt?_window {data : ByteArray} {offset capacity : Nat}
    (h : offset + slotSize ≤ capacity) :
    lengthAt? (window data capacity) offset = lengthAt? data offset := by
  have hword : (Span.ofBytes (window data capacity)).wordAt offset =
      (Span.ofBytes data).wordAt offset :=
    Span.wordAt_upTo (s := Span.ofBytes data) (by simpa [Span.ofBytes] using h)
  simp only [lengthAt?, hword]

theorem embeddedNull?_window {data : ByteArray} {capacity : Nat} (h : bitmapWordSize ≤ capacity) :
    embeddedNull? (window data capacity) = embeddedNull? data := by
  have hnull : (⟨Span.ofBytes (window data capacity), 1⟩ : NullBitmap).isNull 0 =
      (⟨Span.ofBytes data, 1⟩ : NullBitmap).isNull 0 :=
    NullBitmap.isNull_upTo (b := ⟨Span.ofBytes data, 1⟩) (by simpa [Span.ofBytes] using h) 0
  have hroom : bitmapWordSize ≤ (window data capacity).size ↔ bitmapWordSize ≤ data.size := by
    simp only [window, ByteArray.size_extract]
    omega
  apply Option.ext
  intro null
  rw [embeddedNull?_eq_some_iff, embeddedNull?_eq_some_iff, hnull, hroom]

theorem window_behind_bitmap (data : ByteArray) {capacity : Nat} (h : bitmapWordSize ≤ capacity) :
    window ((window data capacity).extract bitmapWordSize (window data capacity).size)
        (capacity - bitmapWordSize) =
      window (data.extract bitmapWordSize data.size) (capacity - bitmapWordSize) := by
  simp only [bitmapWordSize, slotSize] at h ⊢
  simp only [window, ByteArray.extract_extract, ByteArray.size_extract]
  have hstop : min (8 + (capacity - 8)) (min (0 + (min capacity data.size - 0)) capacity) =
      min (8 + (capacity - 8)) data.size := by omega
  rw [Nat.zero_add 8, hstop]

/-- The size of a nullable row, without the capacity in the way of what is read. -/
theorem rowSize?_option_eq_some_iff_data {inner : Schema} {data : ByteArray} {capacity n : Nat} :
    (option inner).rowSize? data capacity = some n ↔
      n ≤ capacity ∧
        ((inner.isZeroWidth ∧ n = bitmapWordSize) ∨
          (inner.isZeroWidth = false ∧ embeddedNull? data = some true ∧ n = bitmapWordSize) ∨
          (inner.isZeroWidth = false ∧ embeddedNull? data = some false ∧
            ∃ size, inner.rowSize? (data.extract bitmapWordSize data.size)
              (capacity - bitmapWordSize) = some size ∧ n = bitmapWordSize + size)) := by
  by_cases hroom : bitmapWordSize ≤ capacity
  · have hinner (size : Nat) := congrArg (inner.rowSize? · (capacity - bitmapWordSize) = some size)
      (window_behind_bitmap data hroom)
    simp only [rowSize?_window] at hinner
    simp only [rowSize?_option_eq_some_iff, embeddedNull?_window hroom, hinner]
  · constructor
    · intro h
      obtain ⟨hfit, h⟩ := rowSize?_option_eq_some_iff.mp h
      rcases h with ⟨_, rfl⟩ | ⟨_, _, rfl⟩ | ⟨_, _, size, _, rfl⟩
      all_goals omega
    · rintro ⟨hfit, ⟨_, rfl⟩ | ⟨_, _, rfl⟩ | ⟨_, _, size, _, rfl⟩⟩
      all_goals omega

theorem eq_of_fixedBytes? {s : Schema} {data : ByteArray} {capacity fixed : Nat}
    (h : s.fixedBytes? data capacity = some fixed) :
    fixed = if s.isTuple then s.leaves.length * slotSize else slotSize := by
  have hkind (htuple : s.isTuple) : s.hasDescriptor = false := by
    obtain ⟨field, fields, rfl⟩ := eq_tuple_of_isTuple htuple
    rfl
  rcases fixedBytes?_eq_some_iff.mp h with ⟨hd, hn, _⟩ | ⟨_, htuple, hslots⟩ | ⟨_, htuple, hn⟩
  · have htuple : s.isTuple = false := by
      by_contra htuple
      simp [hkind (by simpa using htuple)] at hd
    rw [hn, htuple]
    rfl
  · rw [htuple, if_pos rfl]
    exact (slotBytes?_eq_some_iff.mp hslots).2.1
  · rw [hn, htuple]
    rfl

/-- A row of fixed size takes its slots and its bitmap. -/
theorem eq_of_plainSize? {s : Schema} (hfixed : s.isFixedSize) {data : ByteArray} {capacity n : Nat}
    (h : s.plainSize? data capacity = some n) :
    n = (if s.isTuple then s.leaves.length * slotSize else slotSize) + s.bitmapBytes := by
  obtain ⟨_, fixed, hslots, ⟨_, rfl⟩ | ⟨hvariable, _⟩⟩ := plainSize?_eq_some_iff.mp h
  · rw [eq_of_fixedBytes? hslots]
  · rw [hfixed] at hvariable
    cases hvariable

theorem lengthAt?_eq_of_window_eq {data other : ByteArray} {n offset length : Nat}
    (hsame : window data n = window other n) (hroom : offset + slotSize ≤ n)
    (h : lengthAt? data offset = some length) : lengthAt? other offset = some length := by
  rw [← lengthAt?_window hroom, ← hsame, lengthAt?_window hroom]
  exact h

/-- Two rows that begin with the same bytes, as many as the first one takes, have the same size. -/
theorem rowSize?_eq_of_window_eq {s : Schema} {data other : ByteArray} {capacity room n m : Nat}
    (h : s.rowSize? data capacity = some n) (h' : s.rowSize? other room = some m)
    (hsame : window data n = window other n) : m = n := by
  by_cases hoption : s.isOption
  · match s, hoption with
    | .option inner, _ =>
      obtain ⟨_, hcases⟩ := rowSize?_option_eq_some_iff_data.mp h
      obtain ⟨_, hcases'⟩ := rowSize?_option_eq_some_iff_data.mp h'
      have hbitmap : bitmapWordSize ≤ n := by
        rcases hcases with ⟨_, rfl⟩ | ⟨_, _, rfl⟩ | ⟨_, _, size, _, rfl⟩
        all_goals omega
      have hnull : embeddedNull? data = embeddedNull? other := by
        rw [← embeddedNull?_window hbitmap, hsame, embeddedNull?_window hbitmap]
      have hrest := window_behind_bitmap data hbitmap
      rw [hsame, window_behind_bitmap other hbitmap] at hrest
      rw [hnull] at hcases
      cases hwidth : inner.isZeroWidth with
      | true =>
        simp only [hwidth, true_and, Bool.true_eq_false, false_and, or_false] at hcases hcases'
        rw [hcases, hcases']
      | false =>
        simp only [hwidth, true_and, Bool.false_eq_true, false_and, false_or] at hcases hcases'
        rcases hcases with ⟨hn, rfl⟩ | ⟨hn, size, hsize, rfl⟩
        · rw [hn] at hcases'
          rcases hcases' with ⟨_, rfl⟩ | ⟨hn', _⟩
          · rfl
          · cases hn'
        · rw [hn] at hcases'
          rcases hcases' with ⟨hn', _⟩ | ⟨_, size', hsize', rfl⟩
          · cases hn'
          · rw [Nat.add_sub_cancel_left] at hrest
            rw [rowSize?_eq_of_window_eq hsize hsize' hrest.symm]
  · have hplain : s.isOption = false := by simpa using hoption
    rw [rowSize?_of_not_isOption hplain] at h h'
    split at h
    next hwidth =>
      rw [if_pos hwidth] at h'
      exact (Option.some.inj h').symm.trans (Option.some.inj h)
    next hwidth =>
      rw [if_neg hwidth] at h'
      obtain ⟨hfit, fixed, hfixed, hsize⟩ := plainSize?_eq_some_iff.mp h
      obtain ⟨hfit', fixed', hfixed', hsize'⟩ := plainSize?_eq_some_iff.mp h'
      have hslots : fixed = fixed' := (eq_of_fixedBytes? hfixed).trans (eq_of_fixedBytes? hfixed').symm
      rcases hsize with ⟨hk, hn⟩ | ⟨hk, length, hlength, hn⟩ <;>
        rcases hsize' with ⟨hk', hn'⟩ | ⟨hk', length', hlength', hn'⟩
      · omega
      · rw [hk] at hk'
        cases hk'
      · rw [hk] at hk'
        cases hk'
      · simp only [lengthWordSize] at hn hn'
        rw [lengthAt?_window (by omega)] at hlength hlength'
        have hfound := lengthAt?_eq_of_window_eq hsame (by omega) hlength
        rw [hslots] at hfound
        obtain rfl := Option.some.inj (hfound.symm.trans hlength')
        omega
termination_by sizeOf s

theorem hasDescriptor_of_isFixedSize {s : Schema} (h : s.isFixedSize) : s.hasDescriptor = false := by
  cases s with
  | list element => simpa [isFixedSize, hasDescriptor] using h
  | str | blob | dict => simp [isFixedSize] at h
  | _ => rfl

/-- A row of fixed size fits its own size, as no descriptor can lead out of it. -/
theorem rowSize?_self_of_isFixedSize {s : Schema} {data : ByteArray} {capacity n : Nat}
    (hfixed : s.isFixedSize) (h : s.rowSize? data capacity = some n) :
    s.rowSize? data n = some n := by
  by_cases hoption : s.isOption
  · match s, hoption with
    | .option inner, _ =>
      obtain ⟨_, hcases⟩ := rowSize?_option_eq_some_iff_data.mp h
      refine rowSize?_option_eq_some_iff_data.mpr ⟨Nat.le_refl n, ?_⟩
      rcases hcases with hwidth | hnull | ⟨hwidth, hnull, size, hsize, rfl⟩
      · exact Or.inl hwidth
      · exact Or.inr (Or.inl hnull)
      · refine Or.inr (Or.inr ⟨hwidth, hnull, size, ?_, rfl⟩)
        rw [Nat.add_sub_cancel_left]
        exact rowSize?_self_of_isFixedSize hfixed hsize
  · have hplain : s.isOption = false := by simpa using hoption
    rw [rowSize?_of_not_isOption hplain] at h ⊢
    split at h
    next hwidth => rw [if_pos hwidth, h]
    next hwidth =>
      rw [if_neg hwidth]
      obtain ⟨_, fixed, hslots, ⟨_, hn⟩ | ⟨hvar, _⟩⟩ := plainSize?_eq_some_iff.mp h
      · refine plainSize?_eq_some_iff.mpr ⟨Nat.le_refl n, fixed, ?_, Or.inl ⟨hfixed, hn⟩⟩
        apply fixedBytes?_eq_some_iff.mpr
        rcases fixedBytes?_eq_some_iff.mp hslots with ⟨hd, _⟩ | ⟨hd, htuple, hslots⟩ | hslot
        · rw [hasDescriptor_of_isFixedSize hfixed] at hd
          cases hd
        · obtain ⟨_, hsize, _⟩ := slotBytes?_eq_some_iff.mp hslots
          refine Or.inr (Or.inl ⟨hd, htuple, slotBytes?_eq_some_iff.mpr
            ⟨htuple, hsize, by omega, fun hvar => ?_⟩⟩)
          rw [hfixed] at hvar
          cases hvar
        · exact Or.inr (Or.inr hslot)
      · rw [hfixed] at hvar
        cases hvar
termination_by sizeOf s

end Schema

end RowFormat
