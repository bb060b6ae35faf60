import RowFormat.Proofs.Size

namespace RowFormat

/-- The same place in a buffer of which only the first `n` bytes are left. -/
def Span.upTo (n : Nat) (s : Span) : Span := ⟨s.data.extract 0 n, s.position⟩

def NullBitmap.upTo (n : Nat) (b : NullBitmap) : NullBitmap := ⟨b.span.upTo n, b.words⟩

namespace Span

variable {n k : Nat} {s : Span}

theorem size_upTo (n : Nat) (s : Span) : (s.upTo n).data.size = min n s.data.size := by
  simp [upTo, ByteArray.size_extract]

theorem upTo_of_size_le (h : s.data.size ≤ n) : s.upTo n = s := by
  exact congrArg (Span.mk · s.position) (Schema.window_of_size_le h)

theorem advance_upTo (h : s.position + k ≤ n) :
    (s.upTo n).advance k = (s.advance k).map (upTo n) := by
  by_cases hroom : s.position + k ≤ s.data.size
  · rw [advance_eq_ok_iff.mpr ⟨hroom, rfl⟩, Except.map, advance_eq_ok_iff, size_upTo]
    exact ⟨Nat.le_min.mpr ⟨h, hroom⟩, rfl⟩
  · have hsame (t : Span) (ht : t.data = s.data) : t.upTo n = t :=
      upTo_of_size_le (by rw [ht]; omega)
    rw [hsame s rfl]
    cases hnext : s.advance k with
    | error e => rfl
    | ok t => exact absurd (advance_eq_ok_iff.mp hnext).1 hroom

theorem bytes_upTo (h : s.position + k ≤ n) : (s.upTo n).bytes k = s.bytes k := by
  by_cases hroom : s.position + k ≤ s.data.size
  · rw [bytes_eq_ok_iff.mpr ⟨hroom, rfl⟩, bytes_eq_ok_iff, size_upTo]
    refine ⟨Nat.le_min.mpr ⟨h, hroom⟩, ?_⟩
    simp only [upTo, ByteArray.extract_extract, Nat.zero_add, Nat.min_eq_left h]
  · rw [upTo_of_size_le (by omega)]

theorem word_upTo (h : s.position + slotSize ≤ n) : (s.upTo n).word = s.word := by
  simp only [word, number, bytes_upTo h]

theorem byte_upTo (h : s.position + slotSize ≤ n) : (s.upTo n).byte = s.byte := by
  simp only [slotSize] at h
  simp only [byte, number, bytes_upTo (show s.position + 1 ≤ n by omega)]

theorem int_upTo (h : s.position + slotSize ≤ n) : (s.upTo n).int = s.int := by
  simp only [int, word_upTo h]

theorem float_upTo (h : s.position + slotSize ≤ n) : (s.upTo n).float = s.float := by
  simp only [float, word_upTo h]

theorem wordAt_upTo (h : s.position + k + slotSize ≤ n) : (s.upTo n).wordAt k = s.wordAt k := by
  simp only [wordAt, advance_upTo (show s.position + k ≤ n by omega)]
  cases hnext : s.advance k with
  | error e => rfl
  | ok t =>
    obtain ⟨_, rfl⟩ := advance_eq_ok_iff.mp hnext
    exact word_upTo h

end Span

namespace NullBitmap

variable {n words : Nat} {s : Span} {b : NullBitmap}

theorem ofSpan_upTo (h : s.position + words * bitmapWordSize ≤ n) :
    ofSpan (s.upTo n) words = (ofSpan s words).map (upTo n) := by
  have hroom : words * bitmapWordSize ≤ (s.upTo n).remaining ↔
      words * bitmapWordSize ≤ s.remaining := by
    simp only [Span.remaining, Span.size_upTo]
    simp only [Span.upTo]
    omega
  unfold ofSpan
  simp only [hroom]
  split
  next => rfl
  next => rfl

theorem embedded_upTo (h : s.position + bitmapWordSize ≤ n) :
    embedded (s.upTo n) = (embedded s).map fun r => (r.1.upTo n, r.2.upTo n) := by
  unfold embedded
  rw [ofSpan_upTo (by omega), Span.advance_upTo h]
  cases ofSpan s 1 with
  | error e => rfl
  | ok bitmap => cases s.advance bitmapWordSize <;> rfl

theorem isNull_upTo (h : b.span.position + b.words * bitmapWordSize ≤ n) (i : Nat) :
    (b.upTo n).isNull i = b.isNull i := by
  have hword : (b.upTo n).word (i / bitmapWordBits) = b.word (i / bitmapWordBits) := by
    unfold word
    by_cases hi : i / bitmapWordBits < b.words
    · have hlast := Nat.mul_le_mul_right bitmapWordSize (Nat.succ_le_of_lt hi)
      simp only [bitmapWordSize, slotSize] at h hlast ⊢
      simp only [upTo, hi, if_true]
      exact Span.wordAt_upTo (by simp only [slotSize]; omega)
    · simp only [upTo, hi, if_false]
  simp only [isNull, hword]

end NullBitmap

end RowFormat
