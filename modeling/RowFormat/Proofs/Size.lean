import RowFormat.Schema.Size

namespace RowFormat

namespace Schema

theorem window_size_le (data : ByteArray) (capacity : Nat) :
    (window data capacity).size ≤ capacity := by
  simp only [window, ByteArray.size_extract]
  omega

theorem window_of_size_le {data : ByteArray} {capacity : Nat} (h : data.size ≤ capacity) :
    window data capacity = data := by
  apply ByteArray.ext
  rw [window, ByteArray.data_extract, Array.extract_eq_self_of_le h]

theorem window_append {data : ByteArray} {capacity : Nat} (h : data.size ≤ capacity)
    (suf : ByteArray) :
    window (data ++ suf) capacity = data ++ window suf (capacity - data.size) := by
  rw [window, ByteArray.extract_append, Nat.zero_sub]
  exact congrArg (· ++ window suf (capacity - data.size)) (window_of_size_le h)

theorem fit?_eq_some_iff {size capacity n : Nat} :
    fit? size capacity = some n ↔ size ≤ capacity ∧ n = size := by
  unfold fit?
  split
  next h => simp [h, eq_comm]
  next h => simp [h]

theorem lengthAt?_eq_some_iff {data : ByteArray} {offset n : Nat} :
    lengthAt? data offset = some n ↔ ∃ word, (Span.ofBytes data).wordAt offset = .ok word ∧
      0 ≤ word.toInt64.toInt ∧ n = word.toInt64.toInt.toNat := by
  unfold lengthAt?
  cases (Span.ofBytes data).wordAt offset with
  | error e => simp
  | ok word =>
    simp only [Except.ok.injEq, exists_eq_left']
    split
    next hneg => simp [Int.not_le.mpr hneg]
    next hneg => simp [Int.not_lt.mp hneg, eq_comm]

theorem slotBytes?_eq_some_iff {s : Schema} {data : ByteArray} {capacity n : Nat} :
    s.slotBytes? data capacity = some n ↔
      s.isTuple ∧ n = s.leaves.length * slotSize ∧ n ≤ capacity ∧
        (s.isFixedSize = false → ∃ length,
          lengthAt? (window data capacity) (s.bitmapBytes + n) = some length ∧
            s.bitmapBytes + n + length ≤ capacity) := by
  unfold slotBytes?
  by_cases hslots : s.isTuple ∧ s.leaves.length * slotSize ≤ capacity
  · cases hfixed : s.isFixedSize with
    | true => grind
    | false =>
      cases hlength : lengthAt? (window data capacity)
        (s.bitmapBytes + s.leaves.length * slotSize) <;> grind
  · grind

theorem fixedBytes?_eq_some_iff {s : Schema} {data : ByteArray} {capacity n : Nat} :
    s.fixedBytes? data capacity = some n ↔
      (s.hasDescriptor ∧ n = slotSize ∧
        ∃ d, (Span.ofBytes data).descriptor = .ok d ∧ d.stop ≤ capacity) ∨
      (s.hasDescriptor = false ∧ s.isTuple ∧ s.slotBytes? data capacity = some n) ∨
      (s.hasDescriptor = false ∧ s.isTuple = false ∧ n = slotSize) := by
  unfold fixedBytes?
  cases hdescriptor : s.hasDescriptor with
  | true =>
    cases (Span.ofBytes data).descriptor with
    | error e => simp
    | ok d => by_cases hstop : d.stop ≤ capacity <;> grind
  | false => cases htuple : s.isTuple <;> grind

theorem plainSize?_eq_some_iff {s : Schema} {data : ByteArray} {capacity n : Nat} :
    s.plainSize? data capacity = some n ↔
      n ≤ capacity ∧ ∃ fixed, s.fixedBytes? data capacity = some fixed ∧
        ((s.isFixedSize ∧ n = fixed + s.bitmapBytes) ∨
          (s.isFixedSize = false ∧ ∃ length, lengthAt? data (fixed + s.bitmapBytes) = some length ∧
            n = fixed + s.bitmapBytes + length + lengthWordSize)) := by
  unfold plainSize?
  cases s.fixedBytes? data capacity with
  | none => simp
  | some fixed =>
    cases hfixed : s.isFixedSize with
    | true => grind [fit?_eq_some_iff]
    | false => cases hlength : lengthAt? data (fixed + s.bitmapBytes) <;> grind [fit?_eq_some_iff]

theorem embeddedNull?_eq_some_iff {data : ByteArray} {null : Bool} :
    embeddedNull? data = some null ↔ bitmapWordSize ≤ data.size ∧
      (⟨Span.ofBytes data, 1⟩ : NullBitmap).isNull 0 = .ok null := by
  unfold embeddedNull?
  cases hb : NullBitmap.embedded (Span.ofBytes data) with
  | error e =>
    have hsmall : ¬bitmapWordSize ≤ data.size := fun h => by
      have hroom : (Span.ofBytes data).position + bitmapWordSize ≤ (Span.ofBytes data).data.size := by
        simpa [Span.ofBytes] using h
      rw [NullBitmap.embedded_eq_ok_iff.mpr ⟨hroom, rfl⟩] at hb
      cases hb
    simp [hsmall]
  | ok r =>
    obtain ⟨hroom, rfl⟩ := NullBitmap.embedded_eq_ok_iff.mp hb
    have hle : bitmapWordSize ≤ data.size := by simpa [Span.ofBytes] using hroom
    simp only [hle, true_and]
    cases (⟨Span.ofBytes data, 1⟩ : NullBitmap).isNull 0 with
    | error e => simp [Except.toOption]
    | ok null => simp [Except.toOption]

theorem rowSize?_of_not_isOption {s : Schema} (h : s.isOption = false) (data : ByteArray)
    (capacity : Nat) :
    s.rowSize? data capacity =
      if s.isZeroWidth then some 0 else s.plainSize? (window data capacity) capacity := by
  cases s with
  | option inner => simp [isOption] at h
  | _ => rfl

/-- The size of a nullable row: of its bitmap, and of the value behind it unless that is null or
has no width. -/
theorem rowSize?_option_eq_some_iff {inner : Schema} {data : ByteArray} {capacity n : Nat} :
    (option inner).rowSize? data capacity = some n ↔
      n ≤ capacity ∧
        ((inner.isZeroWidth ∧ n = bitmapWordSize) ∨
          (inner.isZeroWidth = false ∧ embeddedNull? (window data capacity) = some true ∧
            n = bitmapWordSize) ∨
          (inner.isZeroWidth = false ∧ embeddedNull? (window data capacity) = some false ∧
            ∃ size, inner.rowSize?
                ((window data capacity).extract bitmapWordSize (window data capacity).size)
                (capacity - bitmapWordSize) = some size ∧ n = bitmapWordSize + size)) := by
  rw [rowSize?]
  cases hwidth : inner.isZeroWidth with
  | true => grind [fit?_eq_some_iff]
  | false =>
    cases hnull : embeddedNull? (window data capacity) with
    | none => simp
    | some null =>
      cases null with
      | true => grind [fit?_eq_some_iff]
      | false =>
        cases hinner : inner.rowSize?
          ((window data capacity).extract bitmapWordSize (window data capacity).size)
          (capacity - bitmapWordSize) <;> grind [fit?_eq_some_iff]

end Schema

end RowFormat
