import RowFormat.Proofs.RowReading
import RowFormat.Proofs.SizeGrowth

namespace RowFormat

theorem Filler.fits_encode {f : Filler} {s : Schema} {value : Value} (h : Conforms False s value)
    (hsmall : (f.encode s value).size < halfLimit) :
    f.Fits s.bitmapWords s.isFixedSize (Cell.cellsAt s value) where
  marks_le := by
    rw [Cell.length_marks h, Schema.bitmapWords]
    simp only [bitmapWordBits]
    omega
  no_payload := fun hfixed _ hcell => Cell.isFixedSize_of_mem_cellsAt h hfixed hcell
  small := hsmall

section

variable {f : Filler} {s : Schema} {value : Value} (h : Conforms False s value)
  (htuple : s.isTuple = true) (hsmall : (f.encode s value).size < halfLimit)

include h htuple

theorem head_size_encode : slotSize * (s.bitmapWords + (Cell.cellsAt s value).length) =
    s.bitmapBytes + s.leaves.length * slotSize := by
  rw [Cell.length_cellsAt h htuple, Schema.bitmapBytes, Nat.mul_add, Nat.mul_comm s.bitmapWords,
    Nat.mul_comm s.leaves.length]

theorem size_encode_of_fixed (hfixed : s.isFixedSize = true) :
    (f.encode s value).size = s.bitmapBytes + s.leaves.length * slotSize := by
  rw [Filler.encode, hfixed, Filler.size_image_of_fixed, head_size_encode h htuple]

theorem size_encode_of_not_fixed (hfixed : s.isFixedSize = false) :
    (f.encode s value).size = s.bitmapBytes + s.leaves.length * slotSize + lengthWordSize +
      (Stored.payloads (f.contents (Cell.cellsAt s value))).size := by
  rw [Filler.encode, hfixed, Filler.size_image_of_not_fixed, head_size_encode h htuple]

include hsmall

theorem lengthAt?_encode (hfixed : s.isFixedSize = false) :
    Schema.lengthAt? (f.encode s value) (s.bitmapBytes + s.leaves.length * slotSize) =
      some (Stored.payloads (f.contents (Cell.cellsAt s value))).size := by
  have hsize := size_encode_of_not_fixed (f := f) h htuple hfixed
  have hplace : (Span.ofBytes (f.encode s value)).advance
      (s.bitmapBytes + s.leaves.length * slotSize) =
        .ok ⟨f.encode s value, s.bitmapBytes + s.leaves.length * slotSize⟩ := by
    rw [Span.advance_eq_ok_iff]
    simp only [Span.ofBytes, Nat.zero_add, and_true]
    omega
  have hword : (⟨f.encode s value, s.bitmapBytes + s.leaves.length * slotSize⟩ : Span).word =
      .ok (UInt64.ofNat (Stored.payloads (f.contents (Cell.cellsAt s value))).size) := by
    rw [Filler.encode, hfixed, ← head_size_encode h htuple]
    exact Filler.lengthWord_image
  have hlength : (UInt64.ofNat
      (Stored.payloads (f.contents (Cell.cellsAt s value))).size).toInt64.toInt =
        (Stored.payloads (f.contents (Cell.cellsAt s value))).size := by
    apply toInt_of_lt_halfLimit
    omega
  have hread : (Span.ofBytes (f.encode s value)).wordAt
      (s.bitmapBytes + s.leaves.length * slotSize) =
        .ok (UInt64.ofNat (Stored.payloads (f.contents (Cell.cellsAt s value))).size) := by
    rw [Span.wordAt, hplace]
    exact hword
  refine Schema.lengthAt?_eq_some_iff.mpr ⟨_, hread, ?_, ?_⟩
  · rw [hlength]
    omega
  · rw [hlength, Int.toNat_natCast]

theorem slotBytes?_encode : s.slotBytes? (f.encode s value) (f.encode s value).size =
    some (s.leaves.length * slotSize) := by
  cases hfixed : s.isFixedSize with
  | true =>
    have hsize := size_encode_of_fixed (f := f) h htuple hfixed
    refine Schema.slotBytes?_eq_some_iff.mpr ⟨htuple, rfl, by omega, fun hne => ?_⟩
    rw [hfixed] at hne
    cases hne
  | false =>
    have hsize := size_encode_of_not_fixed (f := f) h htuple hfixed
    refine Schema.slotBytes?_eq_some_iff.mpr ⟨htuple, rfl, by omega, fun _ => ?_⟩
    rw [Schema.window_of_size_le (Nat.le_refl _)]
    exact ⟨_, lengthAt?_encode h htuple hsmall hfixed, by omega⟩

theorem plainSize?_encode (hdescriptor : s.hasDescriptor = false) :
    s.plainSize? (f.encode s value) (f.encode s value).size = some (f.encode s value).size := by
  have hbytes : s.fixedBytes? (f.encode s value) (f.encode s value).size =
      some (s.leaves.length * slotSize) :=
    Schema.fixedBytes?_eq_some_iff.mpr
      (.inr (.inl ⟨hdescriptor, htuple, slotBytes?_encode h htuple hsmall⟩))
  refine Schema.plainSize?_eq_some_iff.mpr ⟨Nat.le_refl _, _, hbytes, ?_⟩
  cases hfixed : s.isFixedSize with
  | true =>
    have hsize := size_encode_of_fixed (f := f) h htuple hfixed
    exact .inl ⟨rfl, by omega⟩
  | false =>
    have hsize := size_encode_of_not_fixed (f := f) h htuple hfixed
    have hlength := lengthAt?_encode h htuple hsmall hfixed
    rw [Nat.add_comm s.bitmapBytes] at hlength
    exact .inr ⟨rfl, _, hlength, by omega⟩

theorem rowSize?_encode :
    s.rowSize? (f.encode s value) (f.encode s value).size = some (f.encode s value).size := by
  obtain ⟨field, fields, rfl⟩ := Schema.eq_tuple_of_isTuple htuple
  have hsize := plainSize?_encode h htuple hsmall rfl
  rw [Schema.rowSize?_of_not_isOption rfl, Schema.window_of_size_le (Nat.le_refl _)]
  exact hsize

end

namespace Decoder

variable {d : Decoder} {f : Filler}

theorem readRecord_encode {s : Schema} {value : Value} (hblob : d.readBlob = keepBlob)
    (htuple : s.isTuple = true)
    (hleaves : ∀ leaf ∈ s.leaves, leaf.schema.withoutOption.isAtom = true)
    (hvalue : Conforms False s value) (hdepth : s.nesting ≤ d.maxDepth)
    (hsmall : (f.encode s value).size < halfLimit) :
    d.readRecord s (Span.ofBytes (f.encode s value)) 0 = .ok value := by
  have hfits := Filler.fits_encode hvalue hsmall
  have hhead : slotSize * (s.bitmapWords + (Cell.cellsAt s value).length) ≤
      (f.encode s value).size := Filler.size_head_le
  have hroom : s.bitmapWords * bitmapWordSize ≤ (Span.ofBytes (f.encode s value)).remaining := by
    simp only [Span.remaining, Span.ofBytes, bitmapWordSize, slotSize] at hhead ⊢
    omega
  have hbitmap := NullBitmap.ofSpan_eq_ok_iff.mpr ⟨hroom, rfl⟩
  have hfixed : (Span.ofBytes (f.encode s value)).advance (s.bitmapWords * bitmapWordSize) =
      .ok ⟨f.encode s value, slotSize * s.bitmapWords⟩ := by
    rw [Span.advance_eq_ok_iff]
    simp only [Span.ofBytes, bitmapWordSize, slotSize, Span.mk.injEq, true_and] at hhead ⊢
    omega
  obtain ⟨field, fields, rfl⟩ := Schema.eq_tuple_of_isTuple htuple
  rw [Schema.nesting] at hdepth
  have hopen := checkDepth_eq_ok (show 0 < d.maxDepth by omega)
    (Span.ofBytes (f.encode (.tuple (field :: fields)) value))
  cases hvalue with
  | @tuple _ items hitems =>
    have hfields := readFields_openRow hfits hblob [] [] hleaves hitems
      (show Schema.nestings (field :: fields) + (0 + 1) ≤ d.maxDepth by omega)
      (List.append_nil _).symm
    simp only [readRecord, hopen, hbitmap, hfixed, NullBitmap.byteCount, Decoding.ofExcept_ok,
      Decoding.access_ok, Decoding.bind_eq, Decoding.ok_bind]
    exact congrArg (fun x => x.bind fun r => Decoding.ok (Value.tuple r.1)) hfields

/-- A row that was written down is read back as the value that it holds, with nothing to report, and
its size is found whatever comes behind it. -/
theorem readRow_encode (d : Decoder) (hblob : d.readBlob = keepBlob) (f : Filler) (s : Schema)
    (value : Value) (htuple : s.isTuple = true)
    (hleaves : ∀ leaf ∈ s.leaves, leaf.schema.withoutOption.isAtom = true)
    (hvalue : Conforms False s value) (hdepth : s.nesting ≤ d.maxDepth)
    (hsmall : (f.encode s value).size < halfLimit) :
    d.readRow (f.encode s value) s = ⟨.ok value, []⟩ ∧ ∀ (suf : ByteArray) (c : Nat),
      s.rowSize? (f.encode s value ++ suf) ((f.encode s value).size + c) =
        some (f.encode s value).size := by
  constructor
  · have hread := readRecord_encode hblob htuple hleaves hvalue hdepth hsmall
    obtain ⟨field, fields, rfl⟩ := Schema.eq_tuple_of_isTuple htuple
    rw [readRow, read, reader_tuple]
    exact hread
  · intro suf c
    have hgrown := Schema.rowSize?_append (rowSize?_encode hvalue htuple hsmall)
      (Nat.le_add_right (f.encode s value).size c) suf
    rw [Schema.window_of_size_le (Nat.le_refl _)] at hgrown
    exact hgrown

/-- Sets all bits that belong to no leaf, and puts sevens in the slots of nulls. -/
def sevens : Filler := ⟨fun _ => true, fun _ => 7, fun _ => 0⟩

set_option maxRecDepth 4000 in
theorem readRow_encode_sevens :
    sevens.encode (.tuple [.option .int, .tuple [.str, .option .blob], .bool])
        (.tuple [.null, .tuple [.str "hi", .blob ⟨#[9]⟩], .bool true]) =
      ⟨#[253, 255, 255, 255, 255, 255, 255, 255, 7, 0, 0, 0, 0, 0, 0, 0, 32, 0, 0, 0, 3, 0, 0, 0,
        27, 0, 0, 0, 1, 0, 0, 0, 1, 0, 0, 0, 0, 0, 0, 0, 4, 0, 0, 0, 0, 0, 0, 0, 104, 105, 0, 9]⟩ ∧
      standard.readRow (sevens.encode (.tuple [.option .int, .tuple [.str, .option .blob], .bool])
          (.tuple [.null, .tuple [.str "hi", .blob ⟨#[9]⟩], .bool true]))
          (.tuple [.option .int, .tuple [.str, .option .blob], .bool]) =
        ⟨.ok (.tuple [.null, .tuple [.str "hi", .blob ⟨#[9]⟩], .bool true]), []⟩ := by
  refine ⟨by rfl, (readRow_encode standard rfl sevens _ _ rfl ?_ ?_ ?_ ?_).1⟩
  · decide
  · exact .tuple (.cons (.none .int)
      (.cons (.tuple (.cons (.str "hi") (.cons (.some (.blob ⟨#[9]⟩)) .nil)))
        (.cons (.bool true) .nil)))
  · decide
  · decide

end Decoder

end RowFormat
