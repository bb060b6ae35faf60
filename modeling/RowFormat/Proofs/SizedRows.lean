import RowFormat.Proofs.RelocatedDecoding
import RowFormat.Proofs.SizeThreshold
import RowFormat.RowStream

namespace RowFormat

namespace Decoder

variable {d : Decoder} {data : ByteArray} {capacity n : Nat} {schema : Schema} {value : Value}
  {ds : Diagnostics}

theorem readSized_eq_ok_iff :
    d.readSized data capacity schema = ⟨.ok (value, n), ds⟩ ↔
      schema.rowSize? data capacity = some n ∧
        d.readRow (Schema.window data capacity) schema = ⟨.ok value, ds⟩ := by
  simp only [readSized, Schema.rowSize?_window]
  cases schema.rowSize? data capacity with
  | none => simp [Decoding.fail]
  | some size =>
    simp only [Decoding.bind_eq, Decoding.bind_eq_ok_iff, Option.some.injEq]
    constructor
    · rintro ⟨read, es, fs, hread, hpair, rfl⟩
      cases hpair
      exact ⟨rfl, by rw [hread, List.append_nil]⟩
    · rintro ⟨rfl, hread⟩
      exact ⟨value, ds, [], hread, rfl, (List.append_nil ds).symm⟩

theorem readSized_all_eq_ok_iff :
    d.readSized data data.size schema = ⟨.ok (value, n), ds⟩ ↔
      schema.rowSize? data data.size = some n ∧ d.readRow data schema = ⟨.ok value, ds⟩ := by
  rw [readSized_eq_ok_iff, Schema.window_of_size_le (Nat.le_refl _)]

theorem readRow_append (h : d.readRow data schema = ⟨.ok value, ds⟩) (suf : ByteArray) :
    d.readRow (data ++ suf) schema = ⟨.ok value, ds⟩ := by
  have hmovable : Movable ByteArray.empty suf (d.reader schema) := reader_inside schema
  have hmoved := hmovable (Span.ofBytes data) none 0 value ds h
  simpa [readRow, read, Span.ofBytes_append] using hmoved

/-- A row that is read from a buffer is read the same from every longer buffer. -/
theorem readSized_append (h : d.readSized data data.size schema = ⟨.ok (value, n), ds⟩)
    (suf : ByteArray) :
    d.readSized (data ++ suf) (data ++ suf).size schema = ⟨.ok (value, n), ds⟩ := by
  obtain ⟨hsize, hread⟩ := readSized_all_eq_ok_iff.mp h
  have hgrown := Schema.rowSize?_append hsize
    (show data.size ≤ (data ++ suf).size by simp) suf
  rw [Schema.window_of_size_le (Nat.le_refl _)] at hgrown
  exact readSized_all_eq_ok_iff.mpr ⟨hgrown, readRow_append hread suf⟩

end Decoder

end RowFormat
