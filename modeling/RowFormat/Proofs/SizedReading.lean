import RowFormat.Proofs.InlineRows
import RowFormat.Proofs.Outcomes

namespace RowFormat

/-- Faults of what is stored, or of a limit that it exceeds. The others tell of an address. -/
def Fault.isOfContent : Fault → Bool
  | .tooDeep .. | .negativeCount .. | .zeroWidthCount .. | .invalidText .. | .dictUnparsed ..
  | .dictKind .. | .blob .. => true
  | .field _ _ _ cause => cause.isOfContent
  | .bounds _ | .countOverflow _ | .listPastEnd .. | .stringTableOverflow | .stringLengthOverflow _
  | .stringLength .. | .notTuple _ | .frame _ | .malformedRow .. | .zeroWidthRow .. | .row .. => false

namespace Schema

/-- A payload that one descriptor leads to, nullable or not. -/
def isPayload : Schema → Bool
  | .str | .blob | .dict => true
  | .option inner => inner.isPayload
  | _ => false

/-- Schemas for which the size of a row vouches for every address that is read: all of a row lies in
its slots, or it is one payload. -/
def isVouched (s : Schema) : Bool := s.isFixedSize && s.keepsToSlots || s.isPayload

theorem isFixedSize_of_isPayload {s : Schema} (h : s.isPayload) : s.isFixedSize = false := by
  match s with
  | .str | .blob | .dict => rfl
  | .option inner => exact isFixedSize_of_isPayload (s := inner) h

theorem keepsToSlots_of_isVouched {s : Schema} (h : s.isVouched) (hfixed : s.isFixedSize) :
    s.keepsToSlots := by
  rcases Bool.or_eq_true .. ▸ h with h | h
  · exact (Bool.and_eq_true .. ▸ h).2
  · rw [isFixedSize_of_isPayload h] at hfixed
    cases hfixed

theorem hasDescriptor_of_isPayload {s : Schema} (h : s.isPayload) (hoption : s.isOption = false) :
    s.hasDescriptor := by
  cases s with
  | str | blob | dict => rfl
  | option inner => cases hoption
  | _ => cases h

end Schema

/-- The decoding is not refused for an address, and its result satisfies a predicate. -/
abbrev Decoding.Reaches {α : Type} (Q : α → Prop) (x : Decoding α) : Prop :=
  x.Ends True (fun e => e.isOfContent = true) Q

variable {d : Decoder}

namespace Decoder

open Decoding (Reaches Ends)

theorem checkDepth_reaches (d : Decoder) (depth : Nat) (span : Span) :
    Reaches (fun _ => depth < d.maxDepth) (.ofExcept (d.checkDepth depth span)) :=
  d.checkDepth_ends depth span rfl

theorem decodeText_reaches (bytes : ByteArray) (position : Nat) :
    Reaches (fun _ => True) (decodeText bytes position) :=
  decodeText_ends bytes position fun _ => rfl

theorem reader_reaches_of_isZeroWidth {s : Schema} (h : s.isZeroWidth) (span : Span)
    (bit : Option NullBit) (depth : Nat) :
    Reaches (fun _ => True) (d.reader s span bit depth) := by
  cases s with
  | null | emptyTuple | emptyList | emptyDict => exact .ok trivial
  | tuple fields =>
    cases fields with
    | nil => exact .ok trivial
    | cons field fields => cases h
  | _ => cases h

theorem readZeroWidthList_reaches {element : Schema} (h : element.isZeroWidth) {span : Span}
    (hroom : span.position + slotSize ≤ span.data.size) (depth : Nat) :
    Reaches (fun _ => True) (d.readZeroWidthList (d.reader element) span depth) := by
  obtain ⟨count, hcount⟩ := Span.exists_int hroom
  have hitem := reader_reaches_of_isZeroWidth (d := d) h span none (depth + 1)
  have hread : Reaches (fun _ => True) (readCount span) := by
    refine .bind_access hcount ?_
    split
    next => exact .of_fail rfl
    next => exact .ok trivial
  refine hread.bind fun n _ => ?_
  split
  next => exact hitem.bind fun item _ => .ok trivial
  next => exact .of_fail rfl

/-- A value that lies in its slot is read if the slot is there. -/
theorem reader_reaches_of_isCell {s : Schema} (h : s.isCell) {span : Span}
    (hroom : s.isZeroWidth = false → span.position + slotSize ≤ span.data.size)
    (bit : Option NullBit) (depth : Nat) :
    Reaches (fun _ => True) (d.reader s span bit depth) := by
  cases s with
  | bool =>
    obtain ⟨b, hb⟩ := Span.exists_byte (hroom rfl)
    exact .bind_access hb (.ok trivial)
  | int =>
    obtain ⟨n, hn⟩ := Span.exists_int (hroom rfl)
    exact .bind_access hn (.ok trivial)
  | float =>
    obtain ⟨x, hx⟩ := Span.exists_float (hroom rfl)
    exact .bind_access hx (.ok trivial)
  | null | emptyTuple | emptyList | emptyDict => exact .ok trivial
  | list element =>
    have hwidth : element.isZeroWidth := by
      simpa [Schema.isCell, Schema.isFixedSize, Schema.isTuple, Schema.isOption] using h
    refine (checkDepth_reaches d depth span).bind fun _ _ => ?_
    rw [if_pos hwidth]
    exact readZeroWidthList_reaches hwidth (hroom rfl) depth
  | tuple fields =>
    cases fields with
    | nil => exact .ok trivial
    | cons field fields => simp [Schema.isCell, Schema.isTuple] at h
  | str | blob | dict => simp [Schema.isCell, Schema.isFixedSize] at h
  | option inner => simp [Schema.isCell, Schema.isOption] at h

end Decoder

/-- The bits and the slots of some leaves, from a place on, lie in the buffer. -/
structure OpenRow.Holds (row : OpenRow) (place : Place) (leaves : List Leaf) : Prop where
  bitmap : row.bitmap.span.position + row.bitmap.words * bitmapWordSize ≤ row.bitmap.span.data.size
  slots : row.fixed.position + place.offset + slotSize * leaves.length ≤ row.fixed.data.size
  bits : place.bit + leaves.countP (fun leaf => leaf.schema.isOption) ≤
    row.bitmap.words * bitmapWordBits

/-- A place that is no further on than the bits and the slots of some leaves. -/
structure Place.Passes (place next : Place) (leaves : List Leaf) : Prop where
  offset : next.offset ≤ place.offset + slotSize * leaves.length
  bit : next.bit ≤ place.bit + leaves.countP fun leaf => leaf.schema.isOption

section Places

variable {row : OpenRow} {place next last : Place} {front back : List Leaf}

theorem OpenRow.Holds.left (h : row.Holds place (front ++ back)) : row.Holds place front := by
  obtain ⟨hbitmap, hslots, hbits⟩ := h
  rw [List.length_append, Nat.mul_add] at hslots
  rw [List.countP_append] at hbits
  exact ⟨hbitmap, by omega, by omega⟩

theorem OpenRow.Holds.right (h : row.Holds place (front ++ back)) (hnext : place.Passes next front) :
    row.Holds next back := by
  obtain ⟨hbitmap, hslots, hbits⟩ := h
  obtain ⟨hoffset, hbit⟩ := hnext
  rw [List.length_append, Nat.mul_add] at hslots
  rw [List.countP_append] at hbits
  exact ⟨hbitmap, by omega, by omega⟩

theorem Place.Passes.trans (h : place.Passes next front) (h' : next.Passes last back) :
    place.Passes last (front ++ back) := by
  obtain ⟨hoffset, hbit⟩ := h
  obtain ⟨hoffset', hbit'⟩ := h'
  refine ⟨?_, ?_⟩
  · rw [List.length_append, Nat.mul_add]
    omega
  · rw [List.countP_append]
    omega

theorem Place.passes_next (place : Place) (leaf : Leaf) :
    place.Passes (place.next leaf.schema) [leaf] := by
  refine ⟨Decoder.offset_next_le place leaf.schema, ?_⟩
  rw [List.countP_singleton]
  unfold Place.next
  simp only
  split
  next => exact Nat.le_refl _
  next => exact Nat.le_refl _

end Places

namespace Decoder

open Decoding (Reaches Ends)

variable {row : OpenRow} {place : Place}

theorem reader_reaches_of_leaf {s : Schema} (h : s.withoutOption.isCell) {slot : Span}
    (hroom : slot.position + slotSize ≤ slot.data.size) {bit : NullBit}
    (hbit : s.isOption → ∃ null, bit.isNull = .ok null) (depth : Nat) :
    Reaches (fun _ => True) (d.reader s slot (if s.isOption then some bit else none) depth) := by
  cases s with
  | option inner =>
    obtain ⟨null, hnull⟩ := hbit rfl
    simp only [Schema.isOption, if_true, reader, readOption_some]
    refine .bind_access hnull ?_
    cases null with
    | true => exact .ok trivial
    | false => exact reader_reaches_of_isCell h (fun _ => hroom) none depth
  | _ => exact reader_reaches_of_isCell h (fun _ => hroom) _ depth

theorem readSlot_reaches {s : Schema} {path : Path} (h : s.withoutOption.isCell)
    (hroom : row.Holds place [⟨path, s⟩]) :
    Reaches (fun r => place.Passes r.2 [⟨path, s⟩]) (d.readSlot row s path place) := by
  obtain ⟨hbitmap, hslots, hbits⟩ := hroom
  have hslot : row.fixed.advance place.offset =
      .ok ⟨row.fixed.data, row.fixed.position + place.offset⟩ :=
    Span.advance_eq_ok_iff.mpr ⟨by omega, rfl⟩
  refine .bind_access hslot ?_
  have hbit (hoption : s.isOption) :
      ∃ null, NullBit.isNull ⟨row.bitmap, place.bit⟩ = .ok null := by
    refine NullBitmap.exists_isNull hbitmap ?_
    rw [List.countP_singleton, if_pos hoption] at hbits
    exact hbits
  let slot : Span := ⟨row.fixed.data, row.fixed.position + place.offset⟩
  have hread : Reaches (fun _ => True) (d.reader s slot _ (row.depth + path.length)) :=
    reader_reaches_of_leaf h hslots hbit (row.depth + path.length)
  have hfield (e : Fault) (he : e.isOfContent = true) :
      (Fault.field path s (row.fixed.position + place.offset) e).isOfContent = true := he
  refine (hread.within hfield).bind fun value _ => ?_
  exact .ok (place.passes_next ⟨path, s⟩)

mutual

theorem readField_reaches {field : Schema} {path : Path} {place : Place}
    (hcells : ∀ leaf ∈ field.leavesAt path, leaf.schema.withoutOption.isCell)
    (hroom : row.Holds place (field.leavesAt path)) :
    Reaches (fun r => place.Passes r.2 (field.leavesAt path)) (d.readField row field path place) := by
  by_cases htuple : field.isTuple
  · match field, htuple with
    | .tuple (first :: fields), _ =>
      rw [readField]
      refine (checkDepth_reaches d _ _).bind fun _ _ => ?_
      refine (readFields_reaches hcells hroom).bind fun r hr => ?_
      exact .ok hr
  · have hleaf : field.isTuple = false := by simpa using htuple
    rw [readField_of_not_isTuple hleaf]
    rw [Schema.leavesAt_of_not_isTuple hleaf] at hcells hroom ⊢
    exact readSlot_reaches (hcells _ (List.mem_singleton.mpr rfl)) hroom
termination_by sizeOf field

theorem readFields_reaches {fields : List Schema} {path : Path} {i : Nat} {place : Place}
    (hcells : ∀ leaf ∈ Schema.leavesFrom fields path i, leaf.schema.withoutOption.isCell)
    (hroom : row.Holds place (Schema.leavesFrom fields path i)) :
    Reaches (fun r => place.Passes r.2 (Schema.leavesFrom fields path i))
      (d.readFields row fields path i place) := by
  match fields with
  | [] => exact .ok ⟨Nat.le_add_right _ _, Nat.le_add_right _ _⟩
  | field :: fields =>
    rw [Schema.leavesFrom] at hcells hroom ⊢
    rw [readFields]
    have hleft (leaf : Leaf) (hleaf : leaf ∈ field.leavesAt (path ++ [i])) :=
      hcells leaf (List.mem_append_left _ hleaf)
    have hright (leaf : Leaf) (hleaf : leaf ∈ Schema.leavesFrom fields path (i + 1)) :=
      hcells leaf (List.mem_append_right _ hleaf)
    refine (readField_reaches hleft hroom.left).bind fun r hr => ?_
    refine (readFields_reaches hright (hroom.right hr)).bind fun t ht => ?_
    exact .ok (hr.trans ht)
termination_by sizeOf fields

end

theorem readRecord_reaches {field : Schema} {fields : List Schema} {s : Schema}
    (hs : s = .tuple (field :: fields))
    (hcells : ∀ leaf ∈ s.leaves, leaf.schema.withoutOption.isCell) {span : Span}
    (hroom : span.position + s.bitmapBytes + slotSize * s.leaves.length ≤ span.data.size)
    (depth : Nat) : Reaches (fun _ => True) (d.readRecord s span depth) := by
  rw [Schema.bitmapBytes] at hroom
  have hbitmap : NullBitmap.ofSpan span s.bitmapWords = .ok ⟨span, s.bitmapWords⟩ := by
    refine NullBitmap.ofSpan_eq_ok_iff.mpr ⟨?_, rfl⟩
    rw [Span.remaining]
    omega
  have hfixed : span.advance (s.bitmapWords * bitmapWordSize) =
      .ok ⟨span.data, span.position + s.bitmapWords * bitmapWordSize⟩ :=
    Span.advance_eq_ok_iff.mpr ⟨by omega, rfl⟩
  have hbits : s.leaves.countP (fun leaf => leaf.schema.isOption) ≤
      s.bitmapWords * bitmapWordBits := by
    have hcount : s.optionCount = s.leaves.countP fun leaf => leaf.schema.isOption := by
      rw [hs]
      exact Schema.optionCounts_eq_countP (field :: fields) [] 0
    rw [← hcount, Schema.bitmapWords]
    simp only [bitmapWordBits]
    omega
  refine (checkDepth_reaches d depth span).bind fun _ _ => ?_
  refine .bind_access hbitmap (.bind_access hfixed ?_)
  let row : OpenRow := ⟨span, ⟨span, s.bitmapWords⟩,
    ⟨span.data, span.position + s.bitmapWords * bitmapWordSize⟩, depth⟩
  have hroom : row.Holds ⟨0, 0⟩ s.leaves :=
    ⟨Nat.le_trans (Nat.le_add_right _ _) hroom, hroom, by rw [Nat.zero_add]; exact hbits⟩
  have hfields : Reaches _ (d.readFields row s.fields [] 0 ⟨0, 0⟩) :=
    readFields_reaches hcells hroom
  exact hfields.bind fun _ _ => .ok trivial

/-- A payload inside the buffer is read. -/
theorem reader_reaches_of_descriptor {s : Schema} (h : s.isPayload) (hoption : s.isOption = false)
    {span : Span} {descriptor : Descriptor} (hdescriptor : span.descriptor = .ok descriptor)
    (hroom : span.position + descriptor.stop ≤ span.data.size) (bit : Option NullBit) (depth : Nat) :
    Reaches (fun _ => True) (d.reader s span bit depth) := by
  rw [Descriptor.stop] at hroom
  have htarget : descriptor.target span =
      .ok ⟨span.data, span.position + descriptor.offset.toNat⟩ :=
    Span.advance_eq_ok_iff.mpr ⟨by omega, rfl⟩
  have hbytes (n : Nat) (hn : n ≤ descriptor.length.toNat) :
      ∃ bytes, Span.bytes ⟨span.data, span.position + descriptor.offset.toNat⟩ n = .ok bytes :=
    ⟨_, Span.bytes_eq_ok_iff.mpr ⟨by simp only; omega, rfl⟩⟩
  obtain ⟨payload, hpayload⟩ := hbytes _ (Nat.le_refl _)
  have hpayload : descriptor.payload span = .ok payload := by
    simp only [Descriptor.payload, htarget, bind, Except.bind, hpayload]
  cases s with
  | str =>
    obtain ⟨text, htext⟩ := hbytes (descriptor.length.toNat - 1) (Nat.sub_le _ _)
    refine .bind_access hdescriptor (.bind_access htarget (.bind_access htext ?_))
    exact (decodeText_reaches text _).bind fun _ _ => .ok trivial
  | blob =>
    refine .bind_access hdescriptor (.bind_access hpayload ?_)
    refine .ofExcept (fun e he => ?_) fun _ _ => trivial
    cases hread : d.readBlob payload with
    | error cause =>
      rw [hread] at he
      cases he
      rfl
    | ok value =>
      rw [hread] at he
      cases he
  | dict =>
    refine .bind_access hdescriptor (.bind_access hpayload ?_)
    split
    next => exact .of_fail rfl
    next =>
      split
      next => exact .of_fail rfl
      next => exact fun _ => trivial
  | option inner => cases hoption
  | _ => cases h

/-- A value that stands by itself, of a size that was found, is only refused for what it holds. -/
theorem reader_reaches {s : Schema} (h : s.isVouched) (span : Span)
    (hin : span.position ≤ span.data.size) {size : Nat}
    (hsize : s.rowSize? (span.data.extract span.position span.data.size)
      (span.data.size - span.position) = some size) (depth : Nat) :
    Reaches (fun _ => True) (d.reader s span none depth) := by
  by_cases hoption : s.isOption
  · match s, hoption with
    | .option inner, _ =>
      obtain ⟨hbitmap, hfit, hcases⟩ := rowSize?_option_at hsize
      have hembedded : NullBitmap.embedded span =
          .ok (⟨span, 1⟩, ⟨span.data, span.position + bitmapWordSize⟩) :=
        NullBitmap.embedded_eq_ok_iff.mpr ⟨by omega, rfl⟩
      obtain ⟨null, hnull⟩ : ∃ null, (⟨span, 1⟩ : NullBitmap).isNull 0 = .ok null :=
        NullBitmap.exists_isNull (by simp only; omega) (by simp)
      simp only [reader, readOption_none]
      refine .bind_access hembedded (.bind_access hnull ?_)
      cases null with
      | true => exact .ok trivial
      | false =>
        rcases hcases with hwidth | hmarked | ⟨innerSize, hinner, rfl⟩
        · exact reader_reaches_of_isZeroWidth hwidth _ none depth
        · rw [isNull_of_embeddedNull? hin hmarked] at hnull
          cases hnull
        · have hplace : span.position + bitmapWordSize ≤ span.data.size := by omega
          exact reader_reaches (s := inner) h ⟨span.data, _⟩ hplace hinner depth
  · have hplain : s.isOption = false := by simpa using hoption
    by_cases hwidth : s.isZeroWidth
    · exact reader_reaches_of_isZeroWidth hwidth _ none depth
    · rw [Schema.rowSize?_of_not_isOption hplain, if_neg hwidth] at hsize
      obtain ⟨hfit, fixed, hslotBytes, hcases⟩ := Schema.plainSize?_eq_some_iff.mp hsize
      rcases Bool.or_eq_true .. ▸ h with h | h
      · obtain ⟨hfixed, hslots⟩ := Bool.and_eq_true .. ▸ h
        have hcount := Schema.eq_of_fixedBytes? hslotBytes
        have hn : size = fixed + s.bitmapBytes := by
          rcases hcases with ⟨_, hn⟩ | ⟨hvar, _⟩
          · exact hn
          · rw [hfixed] at hvar
            cases hvar
        by_cases htuple : s.isTuple
        · have hcells (leaf : Leaf) (hleaf : leaf ∈ s.leaves) :=
            Schema.isCell_of_mem_leaves hplain hfixed hslots hleaf
          rw [if_pos htuple] at hcount
          obtain ⟨field, fields, rfl⟩ := Schema.eq_tuple_of_isTuple htuple
          rw [reader_tuple]
          exact readRecord_reaches rfl hcells (by rw [Nat.mul_comm]; omega) depth
        · rw [if_neg htuple] at hcount
          have hcell : s.isCell := by simp [Schema.isCell, hfixed, hplain, htuple]
          exact reader_reaches_of_isCell hcell (fun _ => by omega) none depth
      · have hdescriptor := Schema.hasDescriptor_of_isPayload h hplain
        rcases Schema.fixedBytes?_eq_some_iff.mp hslotBytes with
          ⟨_, _, descriptor, hread, hstop⟩ | ⟨hnone, _⟩ | ⟨hnone, _⟩
        · rw [Schema.window_of_size_le (by rw [ByteArray.size_extract]; omega)] at hread
          have hinside := Span.descriptor_inside (span.data.extract 0 span.position)
            ByteArray.empty _ descriptor hread
          have hplaced : span.descriptor = .ok descriptor := by
            rw [Span.inside_rest hin] at hinside
            exact hinside
          exact reader_reaches_of_descriptor h hplain hplaced (by omega) none depth
        · rw [hdescriptor] at hnone
          cases hnone
        · rw [hdescriptor] at hnone
          cases hnone
termination_by sizeOf s

/-- A row whose size has been found is never refused for an address, only for a limit, a count, a text,
a dict or a blob in it. If it has a fixed size, it is read from the bytes that its size counts. -/
theorem readRow_of_rowSize? {s : Schema} (h : s.isVouched) {data : ByteArray} {n : Nat}
    (hsize : s.rowSize? data data.size = some n) :
    (∀ fault ds, d.readRow data s = ⟨.error fault, ds⟩ → fault.isOfContent = true) ∧
      (s.isFixedSize → d.readRow (data.extract 0 n) s = d.readRow data s) := by
  have hwhole : s.rowSize? (data.extract 0 data.size) (data.size - 0) = some n := by
    rw [ByteArray.extract_zero_size]
    exact hsize
  constructor
  · intro fault ds hfault
    exact (reader_reaches h (Span.ofBytes data) (Nat.zero_le _) hwhole 0).fault hfault fun _ => trivial
  · intro hfixed
    have hslots := Schema.keepsToSlots_of_isVouched h hfixed
    exact reader_upTo hfixed hslots (Span.ofBytes data) (Nat.zero_le _) hwhole
      (Nat.le_of_eq (Nat.zero_add n)) 0

/-- A row of a truth value and a list of nulls that claims to have minus one elements, with a byte
behind it. -/
def negativeList : ByteArray :=
  ⟨#[0, 0, 0, 0, 0, 0, 0, 0, 1, 0, 0, 0, 0, 0, 0, 0, 255, 255, 255, 255, 255, 255, 255, 255, 7]⟩

theorem readRow_of_rowSize?_negativeList :
    (Schema.tuple [.option .bool, .list .null]).rowSize? negativeList negativeList.size = some 24 ∧
      (Fault.field [1] (.list .null) 16 (.negativeCount (-1) 16)).isOfContent = true ∧
      standard.readRow (negativeList.extract 0 24) (.tuple [.option .bool, .list .null]) =
        ⟨.error (.field [1] (.list .null) 16 (.negativeCount (-1) 16)), []⟩ := by
  have hsize : (Schema.tuple [.option .bool, .list .null]).rowSize? negativeList
      negativeList.size = some 24 := by rfl
  have hread : standard.readRow negativeList (.tuple [.option .bool, .list .null]) =
      ⟨.error (.field [1] (.list .null) 16 (.negativeCount (-1) 16)), []⟩ := by rfl
  obtain ⟨hfault, hown⟩ := readRow_of_rowSize? (d := standard) (by rfl) hsize
  exact ⟨hsize, hfault _ _ hread, (hown (by rfl)).trans hread⟩

end Decoder

end RowFormat
