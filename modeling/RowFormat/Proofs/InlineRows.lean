import RowFormat.Proofs.Frames
import RowFormat.Proofs.OwnBytes
import RowFormat.Proofs.RelocatedDecoding

namespace RowFormat

namespace Schema

/-- Whether all of a value lies in its slot. -/
def isCell (s : Schema) : Bool := s.isFixedSize && !s.isTuple && !s.isOption

/-- Whether no nullable leaf is a row of its own or brings a bitmap along: only one slot is counted
for a leaf, and these may take more. -/
def keepsToSlots : Schema → Bool
  | .option inner => inner.keepsToSlots
  | s => s.leaves.all fun leaf => !leaf.schema.isOption ||
      !(leaf.schema.withoutOption.isTuple || leaf.schema.withoutOption.isOption)

mutual

theorem isTuple_of_mem_leavesAt {s : Schema} {path : Path} {leaf : Leaf}
    (h : leaf ∈ s.leavesAt path) : leaf.schema.isTuple = false := by
  by_cases htuple : s.isTuple
  · match s, htuple with
    | .tuple (field :: fields), _ => exact isTuple_of_mem_leavesFrom h
  · have hleaf : s.isTuple = false := by simpa using htuple
    rw [leavesAt_of_not_isTuple hleaf] at h
    obtain rfl := List.mem_singleton.mp h
    exact hleaf
termination_by sizeOf s

theorem isTuple_of_mem_leavesFrom {fields : List Schema} {path : Path} {i : Nat} {leaf : Leaf}
    (h : leaf ∈ leavesFrom fields path i) : leaf.schema.isTuple = false := by
  match fields with
  | [] => simp [leavesFrom] at h
  | field :: fields =>
    rcases List.mem_append.mp h with h | h
    · exact isTuple_of_mem_leavesAt h
    · exact isTuple_of_mem_leavesFrom h
termination_by sizeOf fields

end

theorem isFixedSize_of_mem_leaves {s : Schema} (h : s.isFixedSize) {leaf : Leaf}
    (hleaf : leaf ∈ s.leaves) : leaf.schema.isFixedSize := by
  have hall : allFixedSize s.fields := by
    cases s with
    | tuple fields => exact h
    | _ => rfl
  rw [allFixedSize_eq_all s.fields [] 0] at hall
  exact List.all_eq_true.mp hall leaf hleaf

theorem isCell_of_mem_leaves {s : Schema} (hoption : s.isOption = false) (hfixed : s.isFixedSize)
    (hslots : s.keepsToSlots) {leaf : Leaf} (h : leaf ∈ s.leaves) :
    leaf.schema.withoutOption.isCell := by
  have hleaf := isFixedSize_of_mem_leaves hfixed h
  have htuple := isTuple_of_mem_leavesFrom h
  have hall : s.leaves.all fun leaf => !leaf.schema.isOption ||
      !(leaf.schema.withoutOption.isTuple || leaf.schema.withoutOption.isOption) := by
    cases s with
    | option inner => cases hoption
    | _ => exact hslots
  have hkeeps := List.all_eq_true.mp hall leaf h
  cases hs : leaf.schema with
  | option inner =>
    rw [hs] at hleaf hkeeps
    simpa [isCell, withoutOption, isOption, show inner.isFixedSize from hleaf] using hkeeps
  | _ =>
    rw [hs] at hleaf htuple
    simp [isCell, withoutOption, isOption, hleaf, htuple]

end Schema

variable {n : Nat} {d : Decoder}

namespace Decoder

theorem reader_of_isZeroWidth {s : Schema} (h : s.isZeroWidth) (span other : Span)
    (bit bit' : Option NullBit) (depth depth' : Nat) :
    d.reader s span bit depth = d.reader s other bit' depth' := by
  cases s with
  | null | emptyTuple | emptyList | emptyDict => rfl
  | tuple fields =>
    cases fields with
    | nil => rfl
    | cons field fields => simp [Schema.isZeroWidth] at h
  | _ => simp [Schema.isZeroWidth] at h

theorem readZeroWidthList_upTo {element : Schema} (h : element.isZeroWidth) {span : Span}
    (hroom : span.position + slotSize ≤ n) (depth : Nat) :
    d.readZeroWidthList (d.reader element) (span.upTo n) depth =
      d.readZeroWidthList (d.reader element) span depth := by
  have hitem := reader_of_isZeroWidth (d := d) h (span.upTo n) span none none (depth + 1) (depth + 1)
  simp only [readZeroWidthList, readCount, Span.int_upTo hroom, hitem]
  rfl

/-- A value that lies in its slot is read from there alone. -/
theorem reader_upTo_of_isCell {s : Schema} (h : s.isCell) {span : Span}
    (hroom : s.isZeroWidth = false → span.position + slotSize ≤ n) (bit : Option NullBit)
    (depth : Nat) : d.reader s (span.upTo n) bit depth = d.reader s span bit depth := by
  cases s with
  | bool => simp only [reader, Span.byte_upTo (hroom rfl)]
  | int => simp only [reader, Span.int_upTo (hroom rfl)]
  | float => simp only [reader, Span.float_upTo (hroom rfl)]
  | null | emptyTuple | emptyList | emptyDict => rfl
  | list element =>
    have hwidth : element.isZeroWidth := by
      simpa [Schema.isCell, Schema.isFixedSize, Schema.isTuple, Schema.isOption] using h
    simp only [reader, readList, hwidth, if_true, readZeroWidthList_upTo hwidth (hroom rfl)]
    rfl
  | tuple fields =>
    cases fields with
    | nil => rfl
    | cons field fields => simp [Schema.isCell, Schema.isTuple] at h
  | str | blob | dict => simp [Schema.isCell, Schema.isFixedSize] at h
  | option inner => simp [Schema.isCell, Schema.isOption] at h

end Decoder

def OpenRow.upTo (n : Nat) (row : OpenRow) : OpenRow :=
  ⟨row.start.upTo n, row.bitmap.upTo n, row.fixed.upTo n, row.depth⟩

namespace Decoder

open Decoding (Agree)

variable {row : OpenRow}

theorem reader_upTo_of_leaf {s : Schema} (h : s.withoutOption.isCell) (slot : Span)
    (hroom : slot.position + slotSize ≤ n) (bit : NullBit)
    (hbit : bit.bitmap.span.position + bit.bitmap.words * bitmapWordSize ≤ n) (depth : Nat) :
    d.reader s (slot.upTo n)
        (if s.isOption then some ⟨bit.bitmap.upTo n, bit.index⟩ else none) depth =
      d.reader s slot (if s.isOption then some bit else none) depth := by
  cases s with
  | option inner =>
    have hnull : NullBit.isNull ⟨bit.bitmap.upTo n, bit.index⟩ = bit.isNull :=
      NullBitmap.isNull_upTo hbit bit.index
    have hinner : d.reader inner (slot.upTo n) none depth = d.reader inner slot none depth :=
      reader_upTo_of_isCell h (fun _ => hroom) none depth
    simp only [Schema.isOption, if_true, reader, readOption_some, hnull, hinner]
  | _ => exact reader_upTo_of_isCell h (fun _ => hroom) _ depth

theorem offset_next_le (place : Place) (s : Schema) :
    (place.next s).offset ≤ place.offset + slotSize := by
  unfold Place.next
  simp only
  split
  next => exact Nat.le_add_right _ _
  next => exact Nat.le_refl _

theorem readSlot_upTo {s : Schema} (h : s.withoutOption.isCell)
    (hbitmap : row.bitmap.span.position + row.bitmap.words * bitmapWordSize ≤ n) {place : Place}
    (hroom : row.fixed.position + place.offset + slotSize ≤ n) (path : Path) :
    Agree (fun r t => r = t ∧ t.2.offset ≤ place.offset + slotSize)
      (d.readSlot (row.upTo n) s path place) (d.readSlot row s path place) := by
  have hslot : (row.upTo n).fixed.advance place.offset =
      (row.fixed.advance place.offset).map (Span.upTo n) := Span.advance_upTo (by omega)
  unfold readSlot
  rw [hslot]
  cases hnext : row.fixed.advance place.offset with
  | error e => exact .fail _ []
  | ok slot =>
    obtain ⟨_, rfl⟩ := Span.advance_eq_ok_iff.mp hnext
    have hread := reader_upTo_of_leaf (d := d) h ⟨row.fixed.data, _⟩ hroom ⟨row.bitmap, place.bit⟩
      hbitmap (row.depth + path.length)
    simp only [Except.map, Decoding.access_ok, Decoding.bind_eq, Decoding.ok_bind]
    simp only [OpenRow.upTo] at hread ⊢
    rw [hread]
    exact .bind_same _ fun value => .ok [] ⟨rfl, offset_next_le place s⟩

mutual

theorem readField_upTo {field : Schema} {path : Path} {place : Place}
    (hcells : ∀ leaf ∈ field.leavesAt path, leaf.schema.withoutOption.isCell)
    (hbitmap : row.bitmap.span.position + row.bitmap.words * bitmapWordSize ≤ n)
    (hroom : row.fixed.position + place.offset + slotSize * (field.leavesAt path).length ≤ n) :
    Agree (fun r t => r = t ∧ t.2.offset ≤ place.offset + slotSize * (field.leavesAt path).length)
      (d.readField (row.upTo n) field path place) (d.readField row field path place) := by
  by_cases htuple : field.isTuple
  · match field, htuple with
    | .tuple (first :: fields), _ =>
      rw [readField, readField]
      refine .bind_same _ fun _ => ?_
      refine (readFields_upTo hcells hbitmap hroom).bind ?_
      rintro r t ⟨rfl, hplace⟩
      exact .ok [] ⟨rfl, hplace⟩
  · have hleaf : field.isTuple = false := by simpa using htuple
    rw [readField_of_not_isTuple hleaf, readField_of_not_isTuple hleaf]
    rw [Schema.leavesAt_of_not_isTuple hleaf] at hcells hroom ⊢
    exact readSlot_upTo (hcells _ (List.mem_singleton.mpr rfl)) hbitmap hroom path
termination_by sizeOf field

theorem readFields_upTo {fields : List Schema} {path : Path} {i : Nat} {place : Place}
    (hcells : ∀ leaf ∈ Schema.leavesFrom fields path i, leaf.schema.withoutOption.isCell)
    (hbitmap : row.bitmap.span.position + row.bitmap.words * bitmapWordSize ≤ n)
    (hroom : row.fixed.position + place.offset +
      slotSize * (Schema.leavesFrom fields path i).length ≤ n) :
    Agree (fun r t => r = t ∧
        t.2.offset ≤ place.offset + slotSize * (Schema.leavesFrom fields path i).length)
      (d.readFields (row.upTo n) fields path i place) (d.readFields row fields path i place) := by
  match fields with
  | [] => exact .ok [] ⟨rfl, Nat.le_add_right _ _⟩
  | field :: fields =>
    rw [Schema.leavesFrom, List.length_append, Nat.mul_add] at hroom ⊢
    rw [readFields, readFields]
    have hleft (leaf : Leaf) (hleaf : leaf ∈ field.leavesAt (path ++ [i])) :=
      hcells leaf (List.mem_append_left _ hleaf)
    have hright (leaf : Leaf) (hleaf : leaf ∈ Schema.leavesFrom fields path (i + 1)) :=
      hcells leaf (List.mem_append_right _ hleaf)
    refine (readField_upTo hleft hbitmap (by omega)).bind ?_
    rintro ⟨value, next⟩ _ ⟨rfl, hnext⟩
    simp only at hnext
    refine (readFields_upTo hright hbitmap (by omega)).bind ?_
    rintro ⟨values, last⟩ _ ⟨rfl, hlast⟩
    simp only at hlast
    exact .ok [] ⟨rfl, show last.offset ≤ _ by omega⟩
termination_by sizeOf fields

end

theorem readRecord_upTo {s : Schema} (hcells : ∀ leaf ∈ s.leaves, leaf.schema.withoutOption.isCell)
    {span : Span} (hroom : span.position + s.bitmapBytes + slotSize * s.leaves.length ≤ n)
    (depth : Nat) : d.readRecord s (span.upTo n) depth = d.readRecord s span depth := by
  refine Agree.eq ?_
  unfold readRecord
  refine .bind_same _ fun _ => ?_
  rw [NullBitmap.ofSpan_upTo (by rw [Schema.bitmapBytes] at hroom; omega)]
  cases hbitmap : NullBitmap.ofSpan span s.bitmapWords with
  | error e => exact .fail _ []
  | ok bitmap =>
    obtain ⟨_, rfl⟩ := NullBitmap.ofSpan_eq_ok_iff.mp hbitmap
    have hadvance : (span.upTo n).advance (s.bitmapWords * bitmapWordSize) =
        (span.advance (s.bitmapWords * bitmapWordSize)).map (Span.upTo n) :=
      Span.advance_upTo (by rw [Schema.bitmapBytes] at hroom; omega)
    simp only [Except.map, Decoding.access_ok, Decoding.bind_eq, Decoding.ok_bind,
      NullBitmap.upTo, NullBitmap.byteCount, hadvance]
    cases hfixed : span.advance (s.bitmapWords * bitmapWordSize) with
    | error e => exact .fail _ []
    | ok fixed =>
      obtain ⟨_, rfl⟩ := Span.advance_eq_ok_iff.mp hfixed
      have hbits : span.position + s.bitmapWords * bitmapWordSize ≤ n := by
        rw [Schema.bitmapBytes] at hroom
        omega
      let row : OpenRow := ⟨span, ⟨span, s.bitmapWords⟩,
        ⟨span.data, span.position + s.bitmapWords * bitmapWordSize⟩, depth⟩
      have hfields : Agree _ (d.readFields (row.upTo n) s.fields [] 0 ⟨0, 0⟩)
          (d.readFields row s.fields [] 0 ⟨0, 0⟩) := readFields_upTo hcells hbits hroom
      refine hfields.bind ?_
      rintro r _ ⟨rfl, _⟩
      exact .ok [] rfl

/-- The bit that decides the size of a nullable value is the one that its reader sees. -/
theorem isNull_of_embeddedNull? {span : Span} (h : span.position ≤ span.data.size) {null : Bool}
    (hnull : Schema.embeddedNull? (span.data.extract span.position span.data.size) = some null) :
    (⟨span, 1⟩ : NullBitmap).isNull 0 = .ok null := by
  obtain ⟨_, hbit⟩ := Schema.embeddedNull?_eq_some_iff.mp hnull
  have hplaced := NullBitmap.isNull_inside (span.data.extract 0 span.position) ByteArray.empty _ 0
    null hbit
  simpa only [NullBitmap.inside, Span.inside_rest h, id] using hplaced

/-- The size of a nullable value at a place counts its bitmap, and the value behind it unless that is
null or has no width. -/
theorem rowSize?_option_at {inner : Schema} {span : Span} {size : Nat}
    (h : (Schema.option inner).rowSize? (span.data.extract span.position span.data.size)
      (span.data.size - span.position) = some size) :
    bitmapWordSize ≤ size ∧ size ≤ span.data.size - span.position ∧
      (inner.isZeroWidth ∨
        Schema.embeddedNull? (span.data.extract span.position span.data.size) = some true ∨
        ∃ innerSize, inner.rowSize?
            (span.data.extract (span.position + bitmapWordSize) span.data.size)
            (span.data.size - (span.position + bitmapWordSize)) = some innerSize ∧
          size = bitmapWordSize + innerSize) := by
  obtain ⟨hfit, hcases⟩ := Schema.rowSize?_option_eq_some_iff_data.mp h
  rcases hcases with ⟨hwidth, rfl⟩ | ⟨_, hnull, rfl⟩ | ⟨_, _, innerSize, hinner, rfl⟩
  · exact ⟨Nat.le_refl _, hfit, .inl hwidth⟩
  · exact ⟨Nat.le_refl _, hfit, .inr (.inl hnull)⟩
  · rw [ByteArray.extract_extract, ByteArray.size_extract, Nat.sub_sub] at hinner
    rw [show min (span.position + (min span.data.size span.data.size - span.position))
      span.data.size = span.data.size by omega] at hinner
    exact ⟨Nat.le_add_right _ _, hfit, .inr (.inr ⟨innerSize, hinner, rfl⟩)⟩

theorem readOption_upTo {read : Reader} {span : Span} {depth : Nat}
    (hbits : span.position + bitmapWordSize ≤ n)
    (h : (⟨span, 1⟩ : NullBitmap).isNull 0 = .ok false →
      read (Span.upTo n ⟨span.data, span.position + bitmapWordSize⟩) none depth =
        read ⟨span.data, span.position + bitmapWordSize⟩ none depth) :
    readOption read (span.upTo n) none depth = readOption read span none depth := by
  rw [readOption_none, readOption_none, NullBitmap.embedded_upTo hbits]
  cases hembedded : NullBitmap.embedded span with
  | error e => rfl
  | ok r =>
    obtain ⟨_, rfl⟩ := NullBitmap.embedded_eq_ok_iff.mp hembedded
    have hread := NullBitmap.isNull_upTo (n := n) (b := ⟨span, 1⟩) (by simp only; omega) 0
    simp only [Except.map, Decoding.access_ok, Decoding.ok_bind, hread]
    cases hnull : (⟨span, 1⟩ : NullBitmap).isNull 0 with
    | error e => rfl
    | ok null =>
      simp only [Decoding.access_ok, Decoding.ok_bind]
      cases null with
      | true => rfl
      | false => exact h hnull

/-- A value that stands by itself, nullable or not, is read from the bytes that its size counts. -/
theorem reader_upTo {s : Schema} (hfixed : s.isFixedSize) (hslots : s.keepsToSlots) (span : Span)
    (hin : span.position ≤ span.data.size) {size : Nat}
    (hsize : s.rowSize? (span.data.extract span.position span.data.size)
      (span.data.size - span.position) = some size)
    (hroom : span.position + size ≤ n) (depth : Nat) :
    d.reader s (span.upTo n) none depth = d.reader s span none depth := by
  by_cases hoption : s.isOption
  · match s, hoption with
    | .option inner, _ =>
      obtain ⟨hbitmap, _, hcases⟩ := rowSize?_option_at hsize
      rw [reader]
      refine readOption_upTo (by omega) fun hnull => ?_
      rcases hcases with hwidth | hmarked | ⟨innerSize, hinner, rfl⟩
      · exact reader_of_isZeroWidth hwidth _ _ none none depth depth
      · rw [isNull_of_embeddedNull? hin hmarked] at hnull
        cases hnull
      · have hfixed : inner.isFixedSize := hfixed
        have hslots : inner.keepsToSlots := hslots
        have hplace : span.position + bitmapWordSize ≤ span.data.size := by omega
        have hrest : span.position + bitmapWordSize + innerSize ≤ n := by omega
        exact reader_upTo hfixed hslots ⟨span.data, _⟩ hplace hinner hrest depth
  · have hplain : s.isOption = false := by simpa using hoption
    by_cases hwidth : s.isZeroWidth
    · exact reader_of_isZeroWidth hwidth _ _ none none depth depth
    · rw [Schema.rowSize?_of_not_isOption hplain, if_neg hwidth] at hsize
      obtain ⟨_, fixed, hslotBytes, ⟨_, hn⟩ | ⟨hvar, _⟩⟩ := Schema.plainSize?_eq_some_iff.mp hsize
      · have hcount := Schema.eq_of_fixedBytes? hslotBytes
        by_cases htuple : s.isTuple
        · have hcells (leaf : Leaf) (hleaf : leaf ∈ s.leaves) :=
            Schema.isCell_of_mem_leaves hplain hfixed hslots hleaf
          rw [if_pos htuple] at hcount
          obtain ⟨field, fields, rfl⟩ := Schema.eq_tuple_of_isTuple htuple
          rw [reader_tuple, reader_tuple]
          exact readRecord_upTo hcells (by rw [Nat.mul_comm]; omega) depth
        · rw [if_neg htuple] at hcount
          have hcell : s.isCell := by simp [Schema.isCell, hfixed, hplain, htuple]
          exact reader_upTo_of_isCell hcell (fun _ => by omega) none depth
      · rw [hfixed] at hvar
        cases hvar
termination_by sizeOf s

end Decoder

end RowFormat
