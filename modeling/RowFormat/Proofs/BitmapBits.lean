import RowFormat.Proofs.Bytes
import RowFormat.Proofs.SizedReading
import Mathlib.Data.Nat.Bitwise

namespace RowFormat

/-- A number to base 256 holds the bits of its digits in their order. -/
theorem testBit_littleEndian {bs : List UInt8} {i : Nat} {b : UInt8} (h : bs[i / 8]? = some b) :
    (littleEndian bs).testBit i = b.toNat.testBit (i % 8) := by
  induction bs generalizing i with
  | nil => cases h
  | cons a bs ih =>
    have ha : a.toNat < 2 ^ 8 := a.toNat_lt
    rw [littleEndian, Nat.add_comm, Nat.testBit_two_pow_mul_add _ ha]
    by_cases hi : i < 8
    · rw [Nat.div_eq_of_lt hi, List.getElem?_cons_zero] at h
      rw [if_pos hi, Option.some.inj h, Nat.mod_eq_of_lt hi]
    · have hplace : i / 8 = (i - 8) / 8 + 1 := by omega
      have hbit : (i - 8) % 8 = i % 8 := by omega
      rw [hplace, List.getElem?_cons_succ] at h
      rw [if_neg hi, ih h, hbit]

/-- The bits of a word are those of the bytes that it is read from. -/
theorem Span.testBit_word {s : Span} {w : UInt64} (h : s.word = .ok w) {i : Nat}
    (hi : i < bitmapWordBits) : ∃ b, s.data.data[s.position + i / 8]? = some b ∧
      w.toNat.testBit i = b.toNat.testBit (i % 8) := by
  have hroom := room_of_word h
  simp only [slotSize, bitmapWordBits] at hroom hi
  rw [word, number, bytes_eq_ok_iff.mpr ⟨hroom, rfl⟩] at h
  obtain rfl := Except.ok.inj h
  have hbyte : s.position + i / 8 < s.data.data.size := by
    have hsize : s.data.data.size = s.data.size := rfl
    omega
  refine ⟨_, Array.getElem?_eq_getElem hbyte, ?_⟩
  have hfirst : i / 8 < s.position + slotSize - s.position := by
    simp only [slotSize]
    omega
  have hdigit : (s.data.extract s.position (s.position + slotSize)).data.toList[i / 8]? =
      some (s.data.data[s.position + i / 8]) := by
    rw [ByteArray.data_extract, Array.toList_extract, List.extract_eq_take_drop,
      List.getElem?_take_of_lt hfirst, List.getElem?_drop, Array.getElem?_toList,
      Array.getElem?_eq_getElem hbyte]
  rw [UInt64.toNat_ofNat', Nat.testBit_mod_two_pow, testBit_littleEndian hdigit]
  simp [hi]

namespace NullBitmap

variable {b : NullBitmap}

theorem lt_of_word {k : Nat} {w : UInt64} (h : b.word k = .ok w) : k < b.words := by
  unfold word at h
  split at h
  next hk => exact hk
  next => cases h

theorem lt_of_isNull {i : Nat} {null : Bool} (h : b.isNull i = .ok null) :
    i < bitmapWordBits * b.words := by
  cases hword : b.word (i / bitmapWordBits) with
  | error e =>
    rw [isNull, hword] at h
    cases h
  | ok w =>
    have hk := lt_of_word hword
    simp only [bitmapWordBits] at hk ⊢
    omega

theorem span_word_of_word {k : Nat} {w : UInt64} (h : b.word k = .ok w) :
    (⟨b.span.data, b.span.position + k * bitmapWordSize⟩ : Span).word = .ok w := by
  rw [word, if_pos (lt_of_word h), Span.wordAt] at h
  cases hplace : b.span.advance (k * bitmapWordSize) with
  | error e =>
    rw [hplace] at h
    cases h
  | ok place =>
    obtain ⟨-, rfl⟩ := Span.advance_eq_ok_iff.mp hplace
    rw [hplace] at h
    exact h

theorem isNull_of_word {k j : Nat} {w : UInt64} (h : b.word k = .ok w) (hj : j < bitmapWordBits) :
    b.isNull (bitmapWordBits * k + j) = .ok (w.toNat.testBit j) := by
  simp only [bitmapWordBits] at hj
  have hword : (bitmapWordBits * k + j) / bitmapWordBits = k := by
    simp only [bitmapWordBits]
    omega
  have hbit : (bitmapWordBits * k + j) % bitmapWordBits = j := by
    simp only [bitmapWordBits]
    omega
  rw [isNull, hword, hbit, h, Except.map]

variable (hroom : b.words * bitmapWordSize ≤ b.span.remaining)

include hroom

theorem inside_of_lt {k : Nat} (hk : k < b.words) :
    b.span.position + b.words * bitmapWordSize ≤ b.span.data.size := by
  simp only [Span.remaining, bitmapWordSize, slotSize] at hroom ⊢
  omega

/-- The bit with an index is found by counting from the first byte of the bitmap. -/
theorem isNull_eq_testBit {i : Nat} (hi : i < bitmapWordBits * b.words) :
    ∃ byte, b.span.data.data[b.span.position + i / 8]? = some byte ∧
      b.isNull i = .ok (byte.toNat.testBit (i % 8)) := by
  simp only [bitmapWordBits] at hi
  have hk : i / 64 < b.words := by omega
  have hj : i % 64 < bitmapWordBits := Nat.mod_lt i (by decide)
  obtain ⟨w, hw⟩ := exists_word (inside_of_lt hroom hk) hk
  obtain ⟨byte, hbyte, hbit⟩ := Span.testBit_word (span_word_of_word hw) hj
  have hplace : b.span.position + i / 64 * bitmapWordSize + i % 64 / 8 =
      b.span.position + i / 8 := by
    simp only [bitmapWordSize, slotSize]
    omega
  have hnull := isNull_of_word hw hj
  rw [Nat.div_add_mod, hbit, Nat.mod_mod_of_dvd i (show 8 ∣ 64 by decide)] at hnull
  rw [hplace] at hbyte
  exact ⟨byte, hbyte, hnull⟩

/-- The first words are read, and as many of their bits are set as fields that they cover are null. -/
theorem count_words {n : Nat} (hn : n ≤ b.words) :
    ∃ ws, (List.range n).mapM b.word = .ok ws ∧
      (ws.map popCount).sum =
        (List.range (bitmapWordBits * n)).countP (b.isNull · = .ok true) := by
  induction n with
  | zero => exact ⟨[], rfl, rfl⟩
  | succ n ih =>
    obtain ⟨ws, hws, hsum⟩ := ih (Nat.le_of_succ_le hn)
    have hk := Nat.lt_of_succ_le hn
    obtain ⟨w, hw⟩ := exists_word (inside_of_lt hroom hk) hk
    refine ⟨ws ++ [w], ?_, ?_⟩
    · rw [List.range_succ, List.mapM_append, hws]
      simp [hw, bind, Except.bind, pure, Except.pure]
    · have hlast : (List.range bitmapWordBits).countP
          ((b.isNull · = .ok true) ∘ (bitmapWordBits * n + ·)) = popCount w := by
        refine List.countP_congr fun j hj => ?_
        rw [Function.comp_apply, isNull_of_word hw (List.mem_range.mp hj)]
        simp
      rw [Nat.mul_succ, List.range_add, List.countP_append, List.countP_map, hlast, ← hsum,
        List.map_append, List.sum_append]
      simp

end NullBitmap

/-- Every bitmap that fits the buffer is a string of bits: 64 of them can be asked for in each word, bit
`i` is bit `i % 8` of byte `i / 8`, and the number of null fields is the number of ones, which a
counter of half a word can hold. -/
theorem nullBitmap_is_bit_string {span : Span} {words : Nat}
    (hroom : bitmapWordSize * words ≤ span.remaining) (hwords : words < 2 ^ 26) :
    ∃ bitmap, NullBitmap.ofSpan span words = .ok bitmap ∧
      (∀ i, (∃ null, bitmap.isNull i = .ok null) ↔ i < bitmapWordBits * words) ∧
      (∀ i < bitmapWordBits * words, ∃ byte, span.data.data[span.position + i / 8]? = some byte ∧
        bitmap.isNull i = .ok (byte.toNat.testBit (i % 8))) ∧
      ∃ count < halfLimit, bitmap.nullCount = .ok count ∧
        count = (List.range (bitmapWordBits * words)).countP (bitmap.isNull · = .ok true) := by
  rw [Nat.mul_comm] at hroom
  refine ⟨⟨span, words⟩, NullBitmap.ofSpan_eq_ok_iff.mpr ⟨hroom, rfl⟩, fun i => ?_, fun i hi => ?_,
    ?_⟩
  · constructor
    · rintro ⟨null, hnull⟩
      exact NullBitmap.lt_of_isNull hnull
    · intro hi
      obtain ⟨byte, -, hnull⟩ := NullBitmap.isNull_eq_testBit (b := ⟨span, words⟩) hroom hi
      exact ⟨_, hnull⟩
  · exact NullBitmap.isNull_eq_testBit (b := ⟨span, words⟩) hroom hi
  · obtain ⟨ws, hws, hsum⟩ := NullBitmap.count_words (b := ⟨span, words⟩) hroom (Nat.le_refl words)
    refine ⟨_, ?_, ?_, hsum⟩
    · rw [hsum]
      refine Nat.lt_of_le_of_lt List.countP_le_length ?_
      rw [List.length_range]
      simp only [bitmapWordBits, halfLimit]
      omega
    · rw [NullBitmap.nullCount, hws, Except.map, List.sum]

/-- Two words behind one byte. The first field is null, and so are the last of the first word, the
first of the second word and the one behind it. -/
def twoWords : Span :=
  ⟨⟨#[0xff, 1, 0, 0, 0, 0, 0, 0, 0x80, 3, 0, 0, 0, 0, 0, 0, 0]⟩, 1⟩

theorem nullBitmap_is_bit_string_twoWords :
    ∃ bitmap, NullBitmap.ofSpan twoWords 2 = .ok bitmap ∧ bitmap.isNull 0 = .ok true ∧
      bitmap.isNull 63 = .ok true ∧ bitmap.isNull 64 = .ok true ∧ bitmap.nullCount = .ok 4 := by
  have hroom : bitmapWordSize * 2 ≤ twoWords.remaining := by decide
  obtain ⟨bitmap, hbitmap, -, hbits, count, -, hcount, rfl⟩ :=
    nullBitmap_is_bit_string hroom (by decide)
  obtain rfl := Except.ok.inj hbitmap
  have hread (i : Nat) (byte : UInt8) (hi : i < bitmapWordBits * 2)
      (hbyte : twoWords.data.data[twoWords.position + i / 8]? = some byte)
      (hbit : byte.toNat.testBit (i % 8) = true) :
      (⟨twoWords, 2⟩ : NullBitmap).isNull i = .ok true := by
    obtain ⟨_, hstored, hnull⟩ := hbits i hi
    rw [hnull, ← Option.some.inj (hbyte.symm.trans hstored), hbit]
  refine ⟨_, hbitmap, hread 0 1 (by decide) rfl rfl,
    hread 63 0x80 (by decide) rfl rfl, hread 64 3 (by decide) rfl rfl, ?_⟩
  rw [hcount]
  decide +kernel

end RowFormat
