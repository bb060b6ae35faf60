import RowFormat.Span

namespace RowFormat

/-- A run of bitmap words. The bit with index `i` is the one at place `i % 64` of word `i / 64`, and a set
bit marks a field as null. -/
structure NullBitmap where
  span : Span
  words : Nat

namespace NullBitmap

/-- The bitmap of `words` words at a position. -/
def ofSpan (span : Span) (words : Nat) : Except BoundsError NullBitmap :=
  if words * bitmapWordSize ≤ span.remaining then .ok ⟨span, words⟩
  else .error (.bitmapPastEnd words span.position)

/-- A value outside any row brings a bitmap of one word; the value itself comes behind it. -/
def embedded (span : Span) : Except BoundsError (NullBitmap × Span) := do
  let bitmap ← ofSpan span 1
  let payload ← span.advance bitmapWordSize
  .ok (bitmap, payload)

theorem ofSpan_eq_ok_iff {span : Span} {words : Nat} {b : NullBitmap} :
    ofSpan span words = .ok b ↔ words * bitmapWordSize ≤ span.remaining ∧ b = ⟨span, words⟩ := by
  unfold ofSpan
  split
  next h => simp [h, eq_comm]
  next h => simp [h]

theorem embedded_eq_ok_iff {span : Span} {r : NullBitmap × Span} :
    embedded span = .ok r ↔ span.position + bitmapWordSize ≤ span.data.size ∧
      r = (⟨span, 1⟩, ⟨span.data, span.position + bitmapWordSize⟩) := by
  have hroom : 1 * bitmapWordSize ≤ span.remaining ↔
      span.position + bitmapWordSize ≤ span.data.size := by
    simp only [Span.remaining, bitmapWordSize, slotSize]
    omega
  cases hb : ofSpan span 1 with
  | error e =>
    have hsmall : ¬span.position + bitmapWordSize ≤ span.data.size := fun h => by
      rw [ofSpan_eq_ok_iff.mpr ⟨hroom.mpr h, rfl⟩] at hb
      cases hb
    simp [embedded, hb, hsmall, bind, Except.bind]
  | ok b =>
    obtain ⟨hle, rfl⟩ := ofSpan_eq_ok_iff.mp hb
    have ht := Span.advance_eq_ok_iff.mpr ⟨hroom.mp hle, rfl⟩
    simp [embedded, hb, ht, hroom.mp hle, bind, Except.bind, eq_comm]

def byteCount (b : NullBitmap) : Nat := b.words * bitmapWordSize

def word (b : NullBitmap) (index : Nat) : Except BoundsError UInt64 :=
  if index < b.words then b.span.wordAt (index * bitmapWordSize)
  else .error (.wordOutOfRange index b.words)

def isNull (b : NullBitmap) (index : Nat) : Except BoundsError Bool :=
  (b.word (index / bitmapWordBits)).map fun w => w.toNat.testBit (index % bitmapWordBits)

/-- The number of ones in a word. -/
def popCount (w : UInt64) : Nat := (List.range bitmapWordBits).countP w.toNat.testBit

/-- The number of fields marked as null. -/
def nullCount (b : NullBitmap) : Except BoundsError Nat :=
  ((List.range b.words).mapM b.word).map fun words => (words.map popCount).foldr (· + ·) 0

end NullBitmap

/-- The bit of one nullable field. -/
structure NullBit where
  bitmap : NullBitmap
  index : Nat

def NullBit.isNull (b : NullBit) : Except BoundsError Bool := b.bitmap.isNull b.index

end RowFormat
