import RowFormat.Proofs.RowLayout

namespace RowFormat

namespace Schema

/-- Kinds that fill a slot and have a payload at most. -/
def isAtom : Schema → Bool
  | .bool | .int | .float | .str | .blob => true
  | _ => false

mutual

/-- The number of tuples around the innermost field. -/
def nesting : Schema → Nat
  | .tuple (field :: fields) => nestings (field :: fields) + 1
  | _ => 0

def nestings : List Schema → Nat
  | [] => 0
  | field :: fields => max field.nesting (nestings fields)

end

end Schema

theorem readText_toByteArray (text : String) : readText text.toByteArray = .ok text := by
  simp [readText, String.fromUTF8?, String.fromUTF8, text.isValidUTF8]

/-- A text with the byte that terminates it. -/
theorem push_toUTF8 (text : String) (terminator : UInt8) :
    text.toUTF8.push terminator = text.toByteArray ++ ⟨#[terminator]⟩ := by
  apply ByteArray.ext
  simp

namespace Stored

/-- A payload lies at a distance from a slot that a descriptor can express. -/
structure LiesAt (b : ByteArray) (span : Span) (distance : Nat) : Prop where
  near : distance < halfLimit
  short : b.size < halfLimit
  split : ∃ pre suf, span.data = pre ++ b ++ suf ∧ pre.size = span.position + distance

variable {b : ByteArray} {span : Span} {distance : Nat}

/-- The slot leads to the payload, of which any beginning can be read. -/
theorem descriptor_of_slot (h : LiesAt b span distance)
    (hword : span.word = .ok ((payload b).slot distance)) :
    ∃ d t, span.descriptor = .ok d ∧ d.target span = .ok t ∧ d.length.toNat = b.size ∧
      ∀ a suf, b = a ++ suf → t.bytes a.size = .ok a := by
  obtain ⟨pre, post, hdata, hpre⟩ := h.split
  have hoffset : (UInt32.ofNat distance).toNat = distance := by
    rw [UInt32.toNat_ofNat', Nat.mod_eq_of_lt h.near]
  have hlength : (UInt32.ofNat b.size).toNat = b.size := by
    rw [UInt32.toNat_ofNat', Nat.mod_eq_of_lt h.short]
  refine ⟨⟨.ofNat distance, .ofNat b.size⟩, ⟨span.data, span.position + distance⟩, ?_, ?_, hlength,
    fun a suf hb => ?_⟩
  · rw [Span.descriptor, hword]
    exact congrArg Except.ok (Descriptor.ofWord_toWord _)
  · rw [Descriptor.target, Span.advance_eq_ok_iff, hoffset, hdata]
    simp only [ByteArray.size_append, and_true]
    omega
  · rw [hdata, hb, ← ByteArray.append_assoc, ByteArray.append_assoc, ← hpre]
    exact Span.bytes_append pre a (suf ++ post)

end Stored

namespace Decoder

variable {d : Decoder} {f : Filler} {i : Nat} {span : Span} {distance : Nat}

/-- A leaf is read from its slot, and from its payload if it has one. -/
theorem reader_of_stored {s : Schema} {value : Value} (hs : s.isAtom = true)
    (hvalue : Conforms False s value) (hblob : d.readBlob = keepBlob)
    (hword : span.word = .ok ((f.stored i value).slot distance))
    (hpayload : ∀ b, f.stored i value = .payload b → Stored.LiesAt b span distance)
    (bit : Option NullBit) (depth : Nat) : d.reader s span bit depth = .ok value := by
  cases hvalue with
  | bool b =>
    have hbyte := Span.byte_of_word hword
    cases b with
    | false => simp [reader, hbyte, Decoding.access_ok, Filler.stored, Stored.slot]
    | true => simp [reader, hbyte, Decoding.access_ok, Filler.stored, Stored.slot]
  | int n =>
    have hint : span.int = .ok n := by simp [Span.int, hword, Filler.stored, Stored.slot, Except.map]
    simp [reader, hint, Decoding.access_ok]
  | float x =>
    have hfloat : span.float = .ok x := by
      simp [Span.float, hword, Filler.stored, Stored.slot, Except.map]
    simp [reader, hfloat, Decoding.access_ok]
  | str text =>
    have hlies := hpayload _ rfl
    obtain ⟨e, target, he, htarget, hlength, hbytes⟩ := Stored.descriptor_of_slot hlies hword
    have hpush := push_toUTF8 text (f.terminator i)
    have htext := hbytes text.toByteArray _ hpush
    rw [String.size_toByteArray] at htext
    have hsize : e.length.toNat - 1 = text.utf8ByteSize := by
      rw [hlength, hpush, ByteArray.size_append, String.size_toByteArray]
      exact Nat.add_sub_cancel _ 1
    simp [reader, readStr, he, htarget, hsize, htext, decodeText, readText_toByteArray,
      Decoding.access_ok, Decoding.ofExcept_ok, mapError_ok]
  | blob bytes =>
    have hlies := hpayload _ rfl
    obtain ⟨e, target, he, htarget, hlength, hbytes⟩ := Stored.descriptor_of_slot hlies hword
    have hall : e.payload span = .ok bytes := by
      have hread := hbytes bytes ByteArray.empty ByteArray.append_empty.symm
      simp [Descriptor.payload, htarget, hlength, hread, bind, Except.bind]
    simp [reader, readBlobAt, he, hall, hblob, keepBlob, Decoding.access_ok,
      Decoding.ofExcept_ok, mapError_ok]
  | _ => simp [Schema.isAtom] at hs

end Decoder

namespace Cell

/-- The place behind some leaves. -/
def placeAfter (cells : List Cell) : Place := ⟨(marks cells).length, slotSize * cells.length⟩

theorem next_placeAfter {s : Schema} (hs : s.withoutOption.isAtom = true) (cells : List Cell)
    (value : Value) : (placeAfter cells).next s = placeAfter (cells ++ [⟨s, value⟩]) := by
  have hwidth : s.withoutOption.isZeroWidth = false := by
    cases hinner : s.withoutOption with
    | null | emptyTuple | emptyList | emptyDict | tuple _ =>
      rw [hinner] at hs
      simp [Schema.isAtom] at hs
    | _ => rfl
  cases hoption : s.isOption with
  | false => simp [placeAfter, Place.next, hwidth, hoption, marks, Nat.mul_add]
  | true => simp [placeAfter, Place.next, hwidth, hoption, marks, Nat.mul_add]

end Cell

theorem isFixedSize_eq_false_of_payload {f : Filler} {i : Nat} {s : Schema} {value : Value}
    {b : ByteArray} (hs : s.withoutOption.isAtom = true) (hvalue : Conforms False s value)
    (h : f.stored i value = .payload b) : s.isFixedSize = false := by
  cases hvalue with
  | str _ | blob _ => rfl
  | some hinner =>
    cases hinner with
    | str _ | blob _ => rfl
    | bool _ | int _ | float _ => simp [Filler.stored] at h
    | _ => simp [Schema.withoutOption, Schema.isAtom] at hs
  | bool _ | int _ | float _ | none _ => simp [Filler.stored] at h
  | _ => simp [Schema.withoutOption, Schema.isAtom] at hs

/-- The bitmap has a bit for every nullable leaf, the region is only left out where no leaf needs
it, and descriptors can express all distances. -/
structure Filler.Fits (f : Filler) (words : Nat) (fixed : Bool) (cells : List Cell) : Prop where
  marks_le : (Cell.marks cells).length ≤ bitmapWordBits * words
  no_payload : fixed = true → ∀ cell ∈ cells, cell.schema.isFixedSize = true
  small : (f.image words fixed cells).size < halfLimit

/-- A written row with its bitmap and its slots found. -/
def Filler.openRow (f : Filler) (words : Nat) (fixed : Bool) (cells : List Cell) : OpenRow where
  start := ⟨f.image words fixed cells, 0⟩
  bitmap := ⟨⟨f.image words fixed cells, 0⟩, words⟩
  fixed := ⟨f.image words fixed cells, slotSize * words⟩
  depth := 0

namespace Decoder

variable {d : Decoder} {f : Filler} {words i : Nat} {fixed : Bool} {cells : List Cell}

theorem liesAt_of_payload {s : Schema} {value : Value} {b : ByteArray}
    (hf : f.Fits words fixed cells) (hcell : cells[i]? = some ⟨s, value⟩)
    (hs : s.withoutOption.isAtom = true) (hvalue : Conforms False s value)
    (hb : f.stored i value = .payload b) :
    Stored.LiesAt b ⟨f.image words fixed cells, slotSize * (words + i)⟩
      (slotSize * (cells.length - i) + lengthWordSize +
        (Stored.payloads ((f.contents cells).take i)).size) := by
  have hcontents := Filler.contents_getElem? (f := f) hcell
  rw [hb] at hcontents
  have hi := (List.getElem?_eq_some_iff.mp hcell).choose
  cases fixed with
  | true =>
    have hfixed := hf.no_payload rfl _ (List.mem_of_getElem? hcell)
    rw [isFixedSize_eq_false_of_payload hs hvalue hb] at hfixed
    cases hfixed
  | false =>
    obtain ⟨pre, suf, himage, hpre⟩ := Filler.image_eq_of_payload words hcontents
    have hsmall := hf.small
    have hsize := congrArg ByteArray.size himage
    simp only [ByteArray.size_append] at hsize
    have hdistance : slotSize * (words + i) + slotSize * (cells.length - i) =
        slotSize * (words + cells.length) := by
      rw [← Nat.mul_add]
      congr 1
      omega
    exact ⟨by omega, by omega, pre, suf, himage, by simp only; omega⟩

variable {done more : List Cell}

theorem readSlot_of_reader {row : OpenRow} {s : Schema} {path : Path} {place : Place} {slot : Span}
    {value : Value} (hslot : row.fixed.advance place.offset = .ok slot)
    (hread : d.reader s slot (if s.isOption then some ⟨row.bitmap, place.bit⟩ else none)
      (row.depth + path.length) = .ok value) :
    d.readSlot row s path place = .ok (value, place.next s) := by
  simp only [readSlot, hslot, Decoding.access_ok, Decoding.bind_eq, Decoding.ok_bind, hread]
  rfl

theorem advance_openRow (h : i < cells.length) :
    (f.openRow words fixed cells).fixed.advance (slotSize * i) =
      .ok ⟨f.image words fixed cells, slotSize * (words + i)⟩ := by
  have hsize : slotSize * (words + cells.length) ≤ (f.image words fixed cells).size :=
    Filler.size_head_le
  rw [Span.advance_eq_ok_iff]
  simp only [Filler.openRow, Span.mk.injEq, true_and, slotSize] at hsize ⊢
  omega

/-- What lies in the slot of a leaf does not depend on whether the leaf is nullable. -/
theorem reader_image {s inner : Schema} {value : Value} (hf : f.Fits words fixed cells)
    (hblob : d.readBlob = keepBlob) (hcell : cells[i]? = some ⟨s, value⟩)
    (hs : s.withoutOption.isAtom = true) (hvalue : Conforms False s value)
    (hinner : inner.isAtom = true) (hheld : Conforms False inner value) (depth : Nat) :
    d.reader inner ⟨f.image words fixed cells, slotSize * (words + i)⟩ none depth = .ok value := by
  have hword : (⟨f.image words fixed cells, slotSize * (words + i)⟩ : Span).word = _ :=
    Filler.word_image (Filler.head_getElem?_slot hcell)
  exact reader_of_stored hinner hheld hblob hword
    (fun b hb => liesAt_of_payload hf hcell hs hvalue hb) none depth

theorem readSlot_openRow {s : Schema} {value : Value} (hf : f.Fits words fixed cells)
    (hblob : d.readBlob = keepBlob) (hcells : cells = done ++ ⟨s, value⟩ :: more)
    (hs : s.withoutOption.isAtom = true) (hvalue : Conforms False s value) (path : Path) :
    d.readSlot (f.openRow words fixed cells) s path (Cell.placeAfter done) =
      .ok (value, Cell.placeAfter (done ++ [⟨s, value⟩])) := by
  have hcell : cells[done.length]? = some ⟨s, value⟩ := by simp [hcells]
  have hslot : (f.openRow words fixed cells).fixed.advance (slotSize * done.length) = _ :=
    advance_openRow (List.getElem?_eq_some_iff.mp hcell).choose
  rw [← Cell.next_placeAfter hs]
  apply readSlot_of_reader hslot
  cases s with
  | option inner =>
    have hmark : (Cell.marks cells)[(Cell.marks done).length]? = some value.isNull := by
      simp [hcells, Cell.marks, Schema.isOption]
    have hnull : NullBit.isNull ⟨(f.openRow words fixed cells).bitmap, (Cell.marks done).length⟩ =
        .ok value.isNull := Filler.isNull_image hf.marks_le hmark
    simp only [Schema.isOption, if_true, reader, readOption_some, Cell.placeAfter, hnull,
      Decoding.access_ok, Decoding.ok_bind]
    cases hvalue with
    | none _ => rfl
    | some hheld =>
      have hpresent : value.isNull = false := by
        cases hheld with
        | null | none _ | some _ => simp [Schema.withoutOption, Schema.isAtom] at hs
        | _ => rfl
      rw [hpresent]
      exact reader_image hf hblob hcell hs (.some hheld) hs hheld _
  | _ => exact reader_image hf hblob hcell hs hvalue hs hvalue _

theorem checkDepth_eq_ok {depth : Nat} (h : depth < d.maxDepth) (span : Span) :
    d.checkDepth depth span = .ok () := if_pos h

mutual

theorem readField_openRow (hf : f.Fits words fixed cells) (hblob : d.readBlob = keepBlob)
    {field : Schema} {item : Value} {path : Path} (done more : List Cell)
    (hleaves : ∀ leaf ∈ field.leavesAt path, leaf.schema.withoutOption.isAtom = true)
    (hitem : Conforms False field item) (hdepth : field.nesting + path.length ≤ d.maxDepth)
    (hcells : cells = done ++ (Cell.cellsAt field item ++ more)) :
    d.readField (f.openRow words fixed cells) field path (Cell.placeAfter done) =
      .ok (item, Cell.placeAfter (done ++ Cell.cellsAt field item)) := by
  by_cases htuple : field.isTuple
  · match field, htuple with
    | .tuple (first :: fields), _ =>
      cases hitem with
      | @tuple _ items hitems =>
        rw [Schema.nesting] at hdepth
        have hopen := checkDepth_eq_ok (show 0 + path.length < d.maxDepth by omega)
          (f.openRow words fixed cells).start
        have hfields := readFields_openRow hf hblob done more hleaves hitems
          (show Schema.nestings (first :: fields) + (path.length + 1) ≤ d.maxDepth by omega) hcells
        have hchecked : d.checkDepth ((f.openRow words fixed cells).depth + path.length)
            (f.openRow words fixed cells).start = .ok () := hopen
        rw [readField]
        simp only [hchecked, hfields, Decoding.ofExcept_ok, Decoding.bind_eq, Decoding.ok_bind]
        rfl
  · have hleaf : field.isTuple = false := by simpa using htuple
    have hatom := hleaves ⟨path, field⟩ (by simp [Schema.leavesAt_of_not_isTuple hleaf])
    rw [Cell.cellsAt_of_not_isTuple hleaf] at hcells ⊢
    rw [readField_of_not_isTuple hleaf]
    exact readSlot_openRow hf hblob hcells hatom hitem path
termination_by sizeOf field

theorem readFields_openRow (hf : f.Fits words fixed cells) (hblob : d.readBlob = keepBlob)
    {fields : List Schema} {items : List Value} {path : Path} {i : Nat} (done more : List Cell)
    (hleaves : ∀ leaf ∈ Schema.leavesFrom fields path i, leaf.schema.withoutOption.isAtom = true)
    (hitems : List.Forall₂ (Conforms False) fields items)
    (hdepth : Schema.nestings fields + (path.length + 1) ≤ d.maxDepth)
    (hcells : cells = done ++ (Cell.cellsFrom fields items ++ more)) :
    d.readFields (f.openRow words fixed cells) fields path i (Cell.placeAfter done) =
      .ok (items, Cell.placeAfter (done ++ Cell.cellsFrom fields items)) := by
  match fields, items, hitems with
  | [], [], _ => simp [readFields, Cell.cellsFrom]
  | field :: fields, item :: items, .cons hitem hitems =>
    rw [Schema.nestings] at hdepth
    rw [Cell.cellsFrom, List.append_assoc] at hcells
    have hfirst := readField_openRow hf hblob done (Cell.cellsFrom fields items ++ more)
      (fun leaf hleaf => hleaves leaf (List.mem_append_left _ hleaf)) hitem
      (show field.nesting + (path ++ [i]).length ≤ d.maxDepth by
        rw [List.length_append, List.length_singleton]
        omega) hcells
    rw [← List.append_assoc] at hcells
    have hrest := readFields_openRow hf hblob (done ++ Cell.cellsAt field item) more
      (fun leaf hleaf => hleaves leaf (List.mem_append_right _ hleaf)) hitems
      (show Schema.nestings fields + (path.length + 1) ≤ d.maxDepth by omega) hcells
    rw [readFields]
    simp only [hfirst, hrest, Decoding.bind_eq, Decoding.ok_bind, Decoding.pure_eq, Cell.cellsFrom,
      List.append_assoc]
termination_by sizeOf fields

end

end Decoder

end RowFormat
