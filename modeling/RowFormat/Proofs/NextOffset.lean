import RowFormat.Proofs.LeafSlots
import RowFormat.Proofs.SizedRows
import Mathlib.Data.List.Basic

namespace RowFormat

namespace Schema

/-- Whether all bytes of the slot are looked at when a value is read. Of a truth value only the first
one is, and of a null none. -/
def fillsSlot : Schema → Bool
  | .int | .float => true
  | .list element => element.isZeroWidth
  | _ => false

/-- Whether a row is read up to the end of the bytes that its size counts. A leaf without width counts
for a slot in the size of a tuple, but takes none when the tuple is read. -/
def isReadThrough : Schema → Bool
  | .option inner => inner.isReadThrough
  | .tuple (field :: fields) =>
    allFixedSize (field :: fields) &&
      (leavesFrom (field :: fields) [] 0).all (fun leaf => !leaf.schema.withoutOption.isZeroWidth) &&
      (leavesFrom (field :: fields) [] 0).getLast?.any (fun leaf => leaf.schema.fillsSlot)
  | s => s.isZeroWidth || s.fillsSlot

/-- The parts of that for a tuple, with its last leaf split off. -/
theorem isReadThrough_tuple {field : Schema} {fields : List Schema}
    (h : (tuple (field :: fields)).isReadThrough) :
    (tuple (field :: fields)).isFixedSize ∧
      ∃ front last, (tuple (field :: fields)).leaves = front ++ [last] ∧ last.schema.fillsSlot ∧
        ∀ leaf ∈ front, leaf.schema.withoutOption.isZeroWidth = false := by
  simp only [isReadThrough, Bool.and_eq_true, Option.any_eq_true, List.all_eq_true,
    Bool.not_eq_true'] at h
  obtain ⟨⟨hfixed, hwidth⟩, last, hlast, hfills⟩ := h
  obtain ⟨front, hleaves⟩ := List.getLast?_eq_some_iff.mp hlast
  refine ⟨hfixed, front, last, hleaves, hfills, fun leaf hleaf => hwidth leaf ?_⟩
  rw [hleaves]
  exact List.mem_append_left _ hleaf

/-- What is no row fills its slot, if it has a width. -/
theorem fillsSlot_of_isReadThrough {s : Schema} (h : s.isReadThrough) (hoption : s.isOption = false)
    (htuple : s.isTuple = false) (hwidth : ¬s.isZeroWidth) : s.fillsSlot := by
  cases s with
  | option inner => cases hoption
  | tuple fields =>
    cases fields with
    | nil => exact absurd rfl hwidth
    | cons field fields => cases htuple
  | int | float => rfl
  | list element => simpa [isReadThrough, isZeroWidth] using h
  | _ => simp_all [isReadThrough, fillsSlot]

theorem isFixedSize_of_fillsSlot {s : Schema} (h : s.fillsSlot) :
    s.isFixedSize ∧ s.bitmapBytes = 0 := by
  cases s with
  | int | float => exact ⟨rfl, rfl⟩
  | list element => exact ⟨h, by simp [bitmapBytes, bitmapWords, optionCount]⟩
  | _ => cases h

end Schema

theorem Place.offset_behind_of_width {leaves : List Leaf}
    (h : ∀ leaf ∈ leaves, leaf.schema.withoutOption.isZeroWidth = false) :
    (behind leaves).offset = leaves.length * slotSize := by
  have hcount : (leaves.countP fun leaf => !leaf.schema.withoutOption.isZeroWidth) = leaves.length :=
    List.countP_eq_length.mpr fun leaf hleaf => by simp [h leaf hleaf]
  rw [behind, hcount, Nat.mul_comm]

namespace Decoder

variable {d : Decoder} {s : Schema} {span : Span} {bit : Option NullBit} {depth : Nat} {value : Value}
  {ds : Diagnostics}

theorem room_of_readCount {count : Nat} (h : readCount span = ⟨.ok count, ds⟩) :
    span.position + slotSize ≤ span.data.size := by
  obtain ⟨_, hword, _⟩ := Decoding.access_bind_eq_ok_iff.mp h
  exact Span.room_of_int hword

theorem room_of_fillsSlot (hfills : s.fillsSlot) (h : d.reader s span bit depth = ⟨.ok value, ds⟩) :
    span.position + slotSize ≤ span.data.size := by
  cases s with
  | int =>
    obtain ⟨_, hword, _⟩ := Decoding.access_bind_eq_ok_iff.mp h
    exact Span.room_of_int hword
  | float =>
    obtain ⟨_, hword, _⟩ := Decoding.access_bind_eq_ok_iff.mp h
    exact Span.room_of_float hword
  | list element =>
    have hwidth : element.isZeroWidth := hfills
    obtain ⟨_, _, _, _, hlist, _⟩ := Decoding.bind_eq_ok_iff.mp h
    rw [if_pos hwidth] at hlist
    obtain ⟨_, _, _, hcount, _⟩ := Decoding.bind_eq_ok_iff.mp hlist
    exact room_of_readCount hcount
  | _ => cases hfills

theorem room_of_readLeafBehind {row : OpenRow} {before : List Leaf} {path : Path}
    (hfills : s.fillsSlot) (h : d.readLeafBehind row before s path = ⟨.ok value, ds⟩) :
    row.fixed.position + (Place.behind before).offset + slotSize ≤ row.fixed.data.size := by
  obtain ⟨_, hslot, hread⟩ := Decoding.access_bind_eq_ok_iff.mp h
  obtain ⟨_, rfl⟩ := Span.advance_eq_ok_iff.mp hslot
  exact room_of_fillsSlot hfills (Decoding.within_eq_ok_iff.mp hread)

/-- The last leaf of such a tuple lies at the end of the bytes that its size counts. -/
theorem room_of_tuple {field : Schema} {fields : List Schema}
    (hthrough : (Schema.tuple (field :: fields)).isReadThrough)
    (h : d.reader (.tuple (field :: fields)) span bit depth = ⟨.ok value, ds⟩) :
    span.position + (Schema.tuple (field :: fields)).bitmapBytes +
      (Schema.tuple (field :: fields)).leaves.length * slotSize ≤ span.data.size := by
  obtain ⟨_, front, last, hleaves, hfills, hwidth⟩ := Schema.isReadThrough_tuple hthrough
  rw [reader_eq_readNested] at h
  obtain ⟨_, _, _, _, hrow, _⟩ := Decoding.bind_eq_ok_iff.mp h
  obtain ⟨_, _, hrow⟩ := Decoding.access_bind_eq_ok_iff.mp hrow
  obtain ⟨fixed, hfixed, hrow⟩ := Decoding.access_bind_eq_ok_iff.mp hrow
  obtain ⟨_, rfl⟩ := Span.advance_eq_ok_iff.mp hfixed
  obtain ⟨items, _, _, hitems, _⟩ := Decoding.bind_eq_ok_iff.mp hrow
  obtain ⟨_, _, _, _, _, _, hlast⟩ := exists_of_readFieldsBehind hitems hleaves
  have hroom := room_of_readLeafBehind hfills hlast
  rw [List.nil_append, Place.offset_behind_of_width hwidth] at hroom
  rw [hleaves, List.length_append, List.length_singleton, Nat.add_mul]
  simp only at hroom
  omega

theorem room_of_plain (hthrough : s.isReadThrough) (hplain : s.isOption = false)
    (hwidth : ¬s.isZeroWidth) {data : ByteArray} {capacity n : Nat}
    (hsize : s.plainSize? data capacity = some n)
    (h : d.reader s span bit depth = ⟨.ok value, ds⟩) :
    span.position + n ≤ span.data.size := by
  by_cases htuple : s.isTuple
  · obtain ⟨field, fields, rfl⟩ := Schema.eq_tuple_of_isTuple htuple
    have hn := Schema.eq_of_plainSize? (Schema.isReadThrough_tuple hthrough).1 hsize
    have hroom := room_of_tuple hthrough h
    rw [if_pos htuple] at hn
    omega
  · have hfills := Schema.fillsSlot_of_isReadThrough hthrough hplain (by simpa using htuple) hwidth
    obtain ⟨hfixed, hbits⟩ := Schema.isFixedSize_of_fillsSlot hfills
    have hn := Schema.eq_of_plainSize? hfixed hsize
    have hroom := room_of_fillsSlot hfills h
    rw [if_neg htuple] at hn
    omega

/-- A nullable value outside any row has its bitmap in front of it. -/
theorem reader_option_eq_ok_iff {inner : Schema} :
    d.reader (.option inner) span none depth = ⟨.ok value, ds⟩ ↔
      span.position + bitmapWordSize ≤ span.data.size ∧
        ∃ null, (⟨span, 1⟩ : NullBitmap).isNull 0 = .ok null ∧
          (if null then .ok .null
            else d.reader inner ⟨span.data, span.position + bitmapWordSize⟩ none depth) =
              ⟨.ok value, ds⟩ := by
  show readOption (d.reader inner) span none depth = _ ↔ _
  rw [readOption_none, Decoding.access_bind_eq_ok_iff]
  constructor
  · rintro ⟨_, hembedded, h⟩
    obtain ⟨hbitmap, rfl⟩ := NullBitmap.embedded_eq_ok_iff.mp hembedded
    exact ⟨hbitmap, Decoding.access_bind_eq_ok_iff.mp h⟩
  · rintro ⟨hbitmap, h⟩
    exact ⟨_, NullBitmap.embedded_eq_ok_iff.mpr ⟨hbitmap, rfl⟩, Decoding.access_bind_eq_ok_iff.mpr h⟩

/-- The induction goes inwards through the bitmaps of nested options, so it is about a value at any
place and under any capacity. -/
theorem room_of_reader {s : Schema} (hthrough : s.isReadThrough) (span : Span)
    (hin : span.position ≤ span.data.size) {capacity n : Nat}
    (hsize : s.rowSize? (span.data.extract span.position span.data.size) capacity = some n)
    (h : d.reader s span none depth = ⟨.ok value, ds⟩) :
    span.position + n ≤ span.data.size := by
  by_cases hoption : s.isOption
  · match s, hoption with
    | .option inner, _ =>
      obtain ⟨hbitmap, null, hnull, h⟩ := reader_option_eq_ok_iff.mp h
      obtain ⟨_, hcases⟩ := Schema.rowSize?_option_eq_some_iff_data.mp hsize
      rcases hcases with ⟨_, rfl⟩ | ⟨_, _, rfl⟩ | ⟨_, hpresent, innerSize, hinner, rfl⟩
      · exact hbitmap
      · exact hbitmap
      · rw [isNull_of_embeddedNull? hin hpresent] at hnull
        cases hnull
        have hrest : (span.data.extract span.position span.data.size).extract bitmapWordSize
            (span.data.extract span.position span.data.size).size =
            span.data.extract (span.position + bitmapWordSize) span.data.size := by
          rw [ByteArray.extract_extract, ByteArray.size_extract]
          congr 1
          omega
        rw [hrest] at hinner
        have hinside : inner.isReadThrough := hthrough
        have hroom := room_of_reader hinside ⟨span.data, span.position + bitmapWordSize⟩ hbitmap
          hinner h
        simp only at hroom
        omega
  · have hplain : s.isOption = false := by simpa using hoption
    by_cases hwidth : s.isZeroWidth
    · rw [Schema.rowSize?_of_not_isOption hplain, if_pos hwidth] at hsize
      obtain rfl := Option.some.inj hsize
      exact hin
    · rw [Schema.rowSize?_of_not_isOption hplain, if_neg hwidth] at hsize
      exact room_of_plain hthrough hplain hwidth hsize h
termination_by sizeOf s

/-- The next row begins inside the capacity. It begins inside the buffer as well if the buffer is no
smaller than the capacity, if the row has a size under the size of the buffer, or if the row is read
through. -/
theorem readSized_size_le {data : ByteArray} {capacity n : Nat}
    (h : d.readSized data capacity s = ⟨.ok (value, n), ds⟩) :
    n ≤ capacity ∧
      (capacity ≤ data.size ∨ (∃ m, s.rowSize? data data.size = some m) ∨ s.isReadThrough →
        n ≤ data.size) := by
  obtain ⟨hsize, hread⟩ := readSized_eq_ok_iff.mp h
  have hfit := Schema.rowSize?_le hsize
  refine ⟨hfit, fun hinside => ?_⟩
  by_cases hroom : capacity ≤ data.size
  · omega
  · have hlarger : data.size ≤ capacity := by omega
    rcases hinside with hroom' | ⟨m, hm⟩ | hthrough
    · exact absurd hroom' hroom
    · -- A row that has a size under some capacity keeps it under every larger one.
      obtain rfl := Option.some.inj ((Schema.rowSize?_mono hm hlarger).symm.trans hsize)
      exact Schema.rowSize?_le hm
    · rw [Schema.window_of_size_le hlarger] at hread
      rw [← Schema.window_of_size_le (Nat.le_refl data.size)] at hsize
      have hroom := room_of_reader hthrough (Span.ofBytes data) (Nat.zero_le _) hsize hread
      simpa [Span.ofBytes] using hroom

/-- A row of a nullable truth value, which is null, and a number: its bitmap and two slots. -/
def nullAndSeven : ByteArray := joined ([1, 0, 7].map wordBytes)

/-- It ends in front of the last byte of the buffer, although the capacity allows more. -/
theorem readSized_size_le_nullAndSeven :
    standard.readSized (nullAndSeven ++ ⟨#[9]⟩) 100 (.tuple [.option .bool, .int]) =
        ⟨.ok (.tuple [.null, .int 7], 24), []⟩ ∧
      (Schema.tuple [.option .bool, .int]).isReadThrough ∧
      24 ≤ 100 ∧ 24 ≤ (nullAndSeven ++ ⟨#[9]⟩).size := by
  have hread : standard.readSized (nullAndSeven ++ ⟨#[9]⟩) 100 (.tuple [.option .bool, .int]) =
      ⟨.ok (.tuple [.null, .int 7], 24), []⟩ := by cbv
  have hthrough : (Schema.tuple [.option .bool, .int]).isReadThrough := by rfl
  obtain ⟨hcapacity, hdata⟩ := readSized_size_le hread
  exact ⟨hread, hthrough, hcapacity, hdata (.inr (.inr hthrough))⟩

/-- A null takes a slot that is not looked at, so the slot may lie behind the end of the buffer. -/
theorem not_readSized_size_le_nullAtEnd :
    standard.readSized (wordBytes 1) 16 (.tuple [.option .int]) = ⟨.ok (.tuple [.null], 16), []⟩ ∧
      ¬∀ (d : Decoder) (data : ByteArray) (capacity : Nat) (s : Schema) (value : Value) (n : Nat)
        (ds : Diagnostics), d.readSized data capacity s = ⟨.ok (value, n), ds⟩ →
        n ≤ capacity ∧ n ≤ data.size := by
  have hread : standard.readSized (wordBytes 1) 16 (.tuple [.option .int]) =
      ⟨.ok (.tuple [.null], 16), []⟩ := by cbv
  refine ⟨hread, fun h => ?_⟩
  have hinside := (h _ _ _ _ _ _ _ hread).2
  rw [size_wordBytes] at hinside
  exact absurd hinside (by decide)

end Decoder

end RowFormat
