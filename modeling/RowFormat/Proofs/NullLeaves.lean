import RowFormat.Proofs.InlineRows
import RowFormat.Proofs.PlainRecursion

namespace RowFormat

/-- Two places at the same position, in buffers of the same size, that have the next `n` bytes in
common. -/
structure Span.Alike (n : Nat) (s t : Span) : Prop where
  position : s.position = t.position
  size : s.data.size = t.data.size
  bytes : s.data.extract s.position (s.position + n) = t.data.extract t.position (t.position + n)

namespace Span.Alike

variable {n k : Nat} {s t : Span}

/-- A place further on can be reached in both buffers or in neither. -/
theorem advance_cases (h : Alike n s t) (k : Nat) :
    (∃ e, s.advance k = .error e ∧ t.advance k = .error e) ∨
      s.advance k = .ok ⟨s.data, s.position + k⟩ ∧ t.advance k = .ok ⟨t.data, t.position + k⟩ := by
  unfold advance
  rw [h.position, h.size]
  by_cases hroom : t.position + k ≤ t.data.size
  · rw [if_pos hroom, if_pos hroom]
    exact .inr ⟨rfl, rfl⟩
  · rw [if_neg hroom, if_neg hroom]
    left
    split
    next => exact ⟨_, rfl, rfl⟩
    next => exact ⟨_, rfl, rfl⟩

/-- A part of the common bytes. -/
theorem within (h : Alike n s t) {m : Nat} (hm : k + m ≤ n) :
    Alike m ⟨s.data, s.position + k⟩ ⟨t.data, t.position + k⟩ := by
  refine ⟨congrArg (· + k) h.position, h.size, ?_⟩
  have hpart (u : Span) : u.data.extract (u.position + k) (u.position + k + m) =
      (u.data.extract u.position (u.position + n)).extract k (k + m) := by
    rw [ByteArray.extract_extract, ← Nat.add_assoc]
    congr 1
    omega
  rw [hpart s, hpart t, h.bytes]

/-- Two buffers that begin alike. -/
theorem ofBytes {data other : ByteArray} (hsize : data.size = other.size)
    (h : data.extract 0 n = other.extract 0 n) : Alike n (Span.ofBytes data) (Span.ofBytes other) := by
  refine ⟨rfl, hsize, ?_⟩
  simp only [Span.ofBytes, Nat.zero_add]
  exact h

theorem mono (h : Alike n s t) (hk : k ≤ n) : Alike k s t := by
  have hpart := h.within (show 0 + k ≤ n by omega)
  exact hpart

theorem bytes_eq (h : Alike n s t) (hk : k ≤ n) : s.bytes k = t.bytes k := by
  unfold Span.bytes
  rw [(h.mono hk).bytes, h.position, h.size]

theorem word (h : Alike n s t) (hn : slotSize ≤ n) : s.word = t.word := by
  simp only [Span.word, Span.number, h.bytes_eq hn]

theorem int (h : Alike n s t) (hn : slotSize ≤ n) : s.int = t.int := by
  rw [Span.int, Span.int, h.word hn]

theorem float (h : Alike n s t) (hn : slotSize ≤ n) : s.float = t.float := by
  rw [Span.float, Span.float, h.word hn]

theorem byte (h : Alike n s t) (hn : 1 ≤ n) : s.byte = t.byte := by
  simp only [Span.byte, Span.number, h.bytes_eq hn]

theorem wordAt (h : Alike n s t) (hk : k + slotSize ≤ n) : s.wordAt k = t.wordAt k := by
  unfold Span.wordAt
  rcases h.advance_cases k with ⟨e, hs, ht⟩ | ⟨hs, ht⟩
  · rw [hs, ht]
  · rw [hs, ht]
    exact (h.within hk).word (Nat.le_refl slotSize)

end Span.Alike

/-- A bitmap that two buffers have in common has the same bits in both. -/
theorem NullBitmap.isNull_alike {words : Nat} {s t : Span}
    (h : Span.Alike (words * bitmapWordSize) s t) (i : Nat) :
    (⟨s, words⟩ : NullBitmap).isNull i = (⟨t, words⟩ : NullBitmap).isNull i := by
  have hword : (⟨s, words⟩ : NullBitmap).word (i / bitmapWordBits) =
      (⟨t, words⟩ : NullBitmap).word (i / bitmapWordBits) := by
    unfold word
    by_cases hi : i / bitmapWordBits < words
    · have hlast := Nat.mul_le_mul_right bitmapWordSize (Nat.succ_le_of_lt hi)
      rw [if_pos hi, if_pos hi]
      refine h.wordAt ?_
      simp only [bitmapWordSize, slotSize] at hlast ⊢
      omega
    · rw [if_neg hi, if_neg hi]
  rw [isNull, isNull, hword]

/-- The row at the start of a buffer, with its bitmap and its slots found. -/
def OpenRow.ofBytes (data : ByteArray) (words : Nat) : OpenRow where
  start := Span.ofBytes data
  bitmap := ⟨Span.ofBytes data, words⟩
  fixed := ⟨data, words * bitmapWordSize⟩
  depth := 0

/-- A leaf behind others that the bitmap at the start of a buffer does not mark as null. -/
def Leaf.Shown (data : ByteArray) (words : Nat) (before : List Leaf) (leaf : Leaf) : Prop :=
  leaf.schema.isOption → (⟨Span.ofBytes data, words⟩ : NullBitmap).isNull (Place.behind before).bit =
    .ok false

namespace Decoder

variable {d : Decoder} {data other : ByteArray} {words : Nat}

theorem reader_of_isCell_alike {s : Schema} (h : s.isCell) {span place : Span}
    (hslot : s.isZeroWidth = false → Span.Alike slotSize span place) (bit : Option NullBit)
    (depth : Nat) : d.reader s span bit depth = d.reader s place bit depth := by
  cases s with
  | bool => simp only [reader, (hslot rfl).byte (by decide)]
  | int => simp only [reader, (hslot rfl).int (Nat.le_refl _)]
  | float => simp only [reader, (hslot rfl).float (Nat.le_refl _)]
  | null | emptyTuple | emptyList | emptyDict => rfl
  | list element =>
    have hwidth : element.isZeroWidth := by
      simpa [Schema.isCell, Schema.isFixedSize, Schema.isTuple, Schema.isOption] using h
    have halike := hslot rfl
    have hitem := reader_of_isZeroWidth (d := d) hwidth span place none none (depth + 1) (depth + 1)
    simp only [reader, readList, hwidth, if_true, readZeroWidthList, readCount, checkDepth, hitem,
      halike.int (Nat.le_refl _), halike.position]
  | tuple fields =>
    cases fields with
    | nil => rfl
    | cons field fields => simp [Schema.isCell, Schema.isTuple] at h
  | str | blob | dict => simp [Schema.isCell, Schema.isFixedSize] at h
  | option inner => simp [Schema.isCell, Schema.isOption] at h

/-- A leaf is read alike in two rows that have its bit in common, if what it holds is read alike where it
is not null. -/
theorem readLeafBehind_congr {row row' : OpenRow} (hdepth : row.depth = row'.depth)
    (hfixed : Span.Alike 0 row.fixed row'.fixed) {before : List Leaf} {leaf : Leaf}
    (hnull : row.bitmap.isNull (Place.behind before).bit = row'.bitmap.isNull (Place.behind before).bit)
    (h : (leaf.schema.isOption → row.bitmap.isNull (Place.behind before).bit = .ok false) → ∀ depth,
      d.reader leaf.schema.withoutOption
          ⟨row.fixed.data, row.fixed.position + (Place.behind before).offset⟩ none depth =
        d.reader leaf.schema.withoutOption
          ⟨row'.fixed.data, row'.fixed.position + (Place.behind before).offset⟩ none depth) :
    d.readLeafBehind row before leaf.schema leaf.path =
      d.readLeafBehind row' before leaf.schema leaf.path := by
  unfold readLeafBehind
  rcases hfixed.advance_cases (Place.behind before).offset with ⟨e, hrow, hrow'⟩ | ⟨hrow, hrow'⟩
  · rw [hrow, hrow']
    rfl
  · rw [hrow, hrow', hdepth]
    simp only [Decoding.access_ok, Decoding.bind_eq, Decoding.ok_bind]
    simp only [hfixed.position] at h ⊢
    congr 1
    obtain ⟨path, s⟩ := leaf
    cases s with
    | option inner =>
      simp only [Schema.isOption, if_true, reader, readOption_some, NullBit.isNull, ← hnull]
      cases hbit : row.bitmap.isNull (Place.behind before).bit with
      | error e => rfl
      | ok null =>
        cases null with
        | true => rfl
        | false => exact h (fun _ => hbit) _
    | _ => exact h (fun hoption => by cases hoption) _

/-- A leaf is read alike from two buffers that have the bitmap in common, and its slot if it is not
null. -/
theorem readLeafBehind_alike
    (hbitmap : Span.Alike (words * bitmapWordSize) (Span.ofBytes data) (Span.ofBytes other))
    {before : List Leaf} {leaf : Leaf}
    (h : leaf.Shown data words before → leaf.schema.withoutOption.isCell ∧
      (leaf.schema.withoutOption.isZeroWidth = false →
        Span.Alike slotSize ⟨data, words * bitmapWordSize + (Place.behind before).offset⟩
          ⟨other, words * bitmapWordSize + (Place.behind before).offset⟩)) :
    d.readLeafBehind (.ofBytes data words) before leaf.schema leaf.path =
      d.readLeafBehind (.ofBytes other words) before leaf.schema leaf.path := by
  apply readLeafBehind_congr
  · rfl
  · refine ⟨rfl, hbitmap.size, ?_⟩
    simp only [Nat.add_zero, ByteArray.extract_same]
  · exact NullBitmap.isNull_alike hbitmap _
  · intro hshown depth
    obtain ⟨hcell, hslot⟩ := h hshown
    exact reader_of_isCell_alike hcell hslot none depth

/-- A row at the start of a buffer is read if its bitmap fits there. -/
theorem readNested_ofBytes (d : Decoder) (s : Schema) (data : ByteArray) :
    d.readNested s (Span.ofBytes data) 0 =
      (Decoding.ofExcept (d.checkDepth 0 (Span.ofBytes data))).bind fun _ =>
        if s.bitmapBytes ≤ data.size then
          (d.readFieldsBehind (.ofBytes data s.bitmapWords) [] s.fields [] 0).bind fun items =>
            .ok (.tuple items)
        else .fail (.bounds (.bitmapPastEnd s.bitmapWords 0)) := by
  unfold readNested
  have hroom : s.bitmapWords * bitmapWordSize ≤ (Span.ofBytes data).remaining ↔
      s.bitmapBytes ≤ data.size := Iff.rfl
  congr 1
  funext _
  by_cases h : s.bitmapBytes ≤ data.size
  · have hbitmap := NullBitmap.ofSpan_eq_ok_iff.mpr ⟨hroom.mpr h, rfl⟩
    have hfixed : (Span.ofBytes data).advance s.bitmapBytes = .ok ⟨data, s.bitmapBytes⟩ := by
      rw [Span.advance_eq_ok_iff]
      simp only [Span.ofBytes, Nat.zero_add]
      exact ⟨h, trivial⟩
    rw [hbitmap, hfixed, if_pos h]
    rfl
  · rw [NullBitmap.ofSpan, if_neg (mt hroom.mp h), if_neg h]
    rfl

/-- A row does not depend on what lies in the slots of its null leaves. Two buffers of the same size
hold the same row, with the same diagnostics or the same fault, if they have the bitmap in common and
every leaf that is not null keeps to its slot, which they have in common too unless it has no width. -/
theorem readRow_eq_of_shown (d : Decoder) (fields : List Schema) (data other : ByteArray)
    (hsize : data.size = other.size)
    (hbitmap : data.extract 0 (Schema.tuple fields).bitmapBytes =
      other.extract 0 (Schema.tuple fields).bitmapBytes)
    (hleaves : ∀ before leaf back, (Schema.tuple fields).leaves = before ++ leaf :: back →
      leaf.Shown data (Schema.tuple fields).bitmapWords before →
      leaf.schema.withoutOption.isCell ∧
        (leaf.schema.withoutOption.isZeroWidth = false →
          let slot := (Schema.tuple fields).bitmapBytes + (Place.behind before).offset
          data.extract slot (slot + slotSize) = other.extract slot (slot + slotSize))) :
    d.readRow data (.tuple fields) = d.readRow other (.tuple fields) := by
  cases fields with
  | nil => rfl
  | cons field fields =>
    have hbits : Span.Alike ((Schema.tuple (field :: fields)).bitmapWords * bitmapWordSize)
        (Span.ofBytes data) (Span.ofBytes other) := .ofBytes hsize hbitmap
    have hrow : d.readFieldsBehind (.ofBytes data (Schema.tuple (field :: fields)).bitmapWords) []
        (field :: fields) [] 0 =
        d.readFieldsBehind (.ofBytes other (Schema.tuple (field :: fields)).bitmapWords) []
          (field :: fields) [] 0 := by
      apply readFieldsBehind_congr
      · rfl
      · rfl
      · intro before leaf back hsplit
        refine readLeafBehind_alike hbits fun hshown => ?_
        obtain ⟨hcell, hslot⟩ := hleaves before leaf back hsplit hshown
        exact ⟨hcell, fun hwidth => ⟨rfl, hsize, hslot hwidth⟩⟩
    rw [readRow, readRow, read, read, reader_eq_readNested, reader_eq_readNested, readNested_ofBytes,
      readNested_ofBytes, Schema.fields, hrow, hsize]
    rfl

def nullableSchema : Schema :=
  .tuple [.option .str, .option .null, .tuple [.option (.list .str), .int]]

/-- A row whose first and third nullable fields are null. Their slots are full of ones. -/
def hiddenOnes : ByteArray :=
  ⟨#[5, 0, 0, 0, 0, 0, 0, 0, 1, 1, 1, 1, 1, 1, 1, 1, 1, 1, 1, 1, 1, 1, 1, 1, 42, 0, 0, 0, 0, 0, 0, 0]⟩

def hiddenZeros : ByteArray :=
  ⟨#[5, 0, 0, 0, 0, 0, 0, 0, 0, 0, 0, 0, 0, 0, 0, 0, 0, 0, 0, 0, 0, 0, 0, 0, 42, 0, 0, 0, 0, 0, 0, 0]⟩

theorem readRow_eq_of_shown_hiddenOnes :
    hiddenOnes.size = hiddenZeros.size ∧ hiddenOnes.extract 0 8 = hiddenZeros.extract 0 8 ∧
      hiddenOnes.extract 24 32 = hiddenZeros.extract 24 32 ∧
      standard.readRow hiddenOnes nullableSchema =
        ⟨.ok (.tuple [.null, .null, .tuple [.null, .int 42]]), []⟩ ∧
      standard.readRow hiddenOnes nullableSchema = standard.readRow hiddenZeros nullableSchema := by
  have hbitmap : hiddenOnes.extract 0 8 = hiddenZeros.extract 0 8 := by rfl
  have hslot : hiddenOnes.extract 24 32 = hiddenZeros.extract 24 32 := by rfl
  have hfirst : (⟨Span.ofBytes hiddenOnes, 1⟩ : NullBitmap).isNull 0 = .ok true := by rfl
  have hthird : (⟨Span.ofBytes hiddenOnes, 1⟩ : NullBitmap).isNull 2 = .ok true := by rfl
  refine ⟨rfl, hbitmap, hslot, by rfl,
    readRow_eq_of_shown standard _ hiddenOnes hiddenZeros rfl hbitmap ?_⟩
  intro before leaf back hsplit hshown
  rcases before with _ | ⟨a, _ | ⟨b, _ | ⟨c, _ | ⟨e, before⟩⟩⟩⟩
  · cases hsplit
    have hfalse := (hshown rfl).symm.trans hfirst
    cases hfalse
  · cases hsplit
    exact ⟨rfl, fun hwidth => by cases hwidth⟩
  · cases hsplit
    have hfalse := (hshown rfl).symm.trans hthird
    cases hfalse
  · cases hsplit
    exact ⟨rfl, fun _ => hslot⟩
  · have hlength := congrArg List.length hsplit
    simp only [List.length_append, List.length_cons] at hlength
    change 4 = _ at hlength
    omega

end Decoder

end RowFormat
