import RowFormat.Proofs.Relocation
import RowFormat.Proofs.Size

namespace RowFormat

theorem extract_append_of_le {a b : ByteArray} {i : Nat} (h : i ≤ a.size) :
    (a ++ b).extract i (a ++ b).size = a.extract i a.size ++ b := by
  rw [ByteArray.extract_eq_extract_append_extract a.size h (by simp),
    ByteArray.extract_append_size_left, ByteArray.extract_append_eq_right rfl ByteArray.size_append]

theorem Span.ofBytes_append (data suf : ByteArray) :
    Span.ofBytes (data ++ suf) = (Span.ofBytes data).inside ByteArray.empty suf := by
  simp [Span.ofBytes, Span.inside]

namespace Schema

theorem lengthAt?_append {data : ByteArray} {offset length : Nat}
    (h : lengthAt? data offset = some length) (suf : ByteArray) :
    lengthAt? (data ++ suf) offset = some length := by
  obtain ⟨word, hword, hsign, hlength⟩ := lengthAt?_eq_some_iff.mp h
  refine lengthAt?_eq_some_iff.mpr ⟨word, ?_, hsign, hlength⟩
  rw [Span.ofBytes_append]
  exact (Span.ofBytes data).wordAt_inside ByteArray.empty suf offset word hword

theorem embeddedNull?_append {data : ByteArray} {null : Bool}
    (h : embeddedNull? data = some null) (suf : ByteArray) :
    embeddedNull? (data ++ suf) = some null := by
  obtain ⟨hroom, hnull⟩ := embeddedNull?_eq_some_iff.mp h
  have hstill := NullBitmap.isNull_inside ByteArray.empty suf ⟨Span.ofBytes data, 1⟩ 0 null hnull
  refine embeddedNull?_eq_some_iff.mpr ⟨?_, ?_⟩
  · rw [ByteArray.size_append]
    omega
  · rw [Span.ofBytes_append]
    exact hstill

section

variable {s : Schema} {data suf : ByteArray} {capacity larger n : Nat}
  (hdata : data.size ≤ capacity) (hle : capacity ≤ larger) (hsuf : (data ++ suf).size ≤ larger)

include hdata hle hsuf

theorem slotBytes?_append (h : s.slotBytes? data capacity = some n) :
    s.slotBytes? (data ++ suf) larger = some n := by
  obtain ⟨htuple, hn, hfit, hlength⟩ := slotBytes?_eq_some_iff.mp h
  refine slotBytes?_eq_some_iff.mpr ⟨htuple, hn, by omega, fun hfixed => ?_⟩
  obtain ⟨length, hlength, hroom⟩ := hlength hfixed
  rw [window_of_size_le hdata] at hlength
  rw [window_of_size_le hsuf]
  exact ⟨length, lengthAt?_append hlength suf, by omega⟩

theorem fixedBytes?_append (h : s.fixedBytes? data capacity = some n) :
    s.fixedBytes? (data ++ suf) larger = some n := by
  apply fixedBytes?_eq_some_iff.mpr
  rcases fixedBytes?_eq_some_iff.mp h with ⟨hkind, hn, d, hd, hstop⟩ | ⟨hkind, htuple, hslots⟩ | hplain
  · refine Or.inl ⟨hkind, hn, d, ?_, by omega⟩
    rw [Span.ofBytes_append]
    exact (Span.ofBytes data).descriptor_inside ByteArray.empty suf d hd
  · exact Or.inr (Or.inl ⟨hkind, htuple, slotBytes?_append hdata hle hsuf hslots⟩)
  · exact Or.inr (Or.inr hplain)

theorem plainSize?_append (h : s.plainSize? data capacity = some n) :
    s.plainSize? (data ++ suf) larger = some n := by
  obtain ⟨hfit, fixed, hfixed, hsize⟩ := plainSize?_eq_some_iff.mp h
  refine plainSize?_eq_some_iff.mpr
    ⟨by omega, fixed, fixedBytes?_append hdata hle hsuf hfixed, ?_⟩
  rcases hsize with hsize | ⟨hkind, length, hlength, hn⟩
  · exact Or.inl hsize
  · exact Or.inr ⟨hkind, length, lengthAt?_append hlength suf, hn⟩

end

/-- A row keeps its size in every buffer that begins with the bytes the capacity allowed to look
at, under every larger capacity. -/
theorem rowSize?_append {s : Schema} {data : ByteArray} {capacity larger n : Nat}
    (h : s.rowSize? data capacity = some n) (hle : capacity ≤ larger) (suf : ByteArray) :
    s.rowSize? (window data capacity ++ suf) larger = some n := by
  have hsize := window_size_le data capacity
  have hgrown := window_append (Nat.le_trans hsize hle) suf
  have hlarger := window_size_le (window data capacity ++ suf) larger
  rw [hgrown] at hlarger
  by_cases hoption : s.isOption
  · match s, hoption with
    | .option inner, _ =>
      obtain ⟨hfit, hcases⟩ := rowSize?_option_eq_some_iff.mp h
      refine rowSize?_option_eq_some_iff.mpr ⟨by omega, ?_⟩
      rw [hgrown]
      rcases hcases with hwidth | ⟨hwidth, hnull, hn⟩ | ⟨hwidth, hnull, size, hinner, hn⟩
      · exact Or.inl hwidth
      · exact Or.inr (Or.inl ⟨hwidth, embeddedNull?_append hnull _, hn⟩)
      · refine Or.inr (Or.inr ⟨hwidth, embeddedNull?_append hnull _, size, ?_, hn⟩)
        have hroom := (embeddedNull?_eq_some_iff.mp hnull).1
        have hrest := rowSize?_append hinner (Nat.sub_le_sub_right hle bitmapWordSize)
          (window suf (larger - (window data capacity).size))
        rw [window_of_size_le (by rw [ByteArray.size_extract]; omega)] at hrest
        rw [extract_append_of_le hroom]
        exact hrest
  · rw [rowSize?_of_not_isOption (by simpa using hoption)] at h ⊢
    split at h
    next hwidth => rw [if_pos hwidth, h]
    next hwidth =>
      rw [if_neg hwidth, hgrown]
      exact plainSize?_append hsize hle hlarger h
termination_by sizeOf s

end Schema

end RowFormat
