import RowFormat.Proofs.Relocation
import Mathlib.Algebra.Ring.Nat

namespace RowFormat

/-- The bytes of some buffers, one behind the other. -/
def joined : List ByteArray → ByteArray
  | [] => ByteArray.empty
  | b :: bs => b ++ joined bs

theorem joined_append (as bs : List ByteArray) : joined (as ++ bs) = joined as ++ joined bs := by
  induction as with
  | nil => simp [joined]
  | cons a as ih => simp only [List.cons_append, joined, ih, ByteArray.append_assoc]

/-- A part of some buffers, with those in front of it and those behind it. -/
theorem joined_eq_of_getElem? {bs : List ByteArray} {i : Nat} {b : ByteArray} (h : bs[i]? = some b) :
    joined bs = joined (bs.take i) ++ b ++ joined (bs.drop (i + 1)) := by
  obtain ⟨hi, hb⟩ := List.getElem?_eq_some_iff.mp h
  have hsplit : bs = bs.take i ++ b :: bs.drop (i + 1) := by
    rw [← hb, ← List.drop_eq_getElem_cons hi, List.take_append_drop]
  have hjoined := congrArg joined hsplit
  rw [joined_append, joined] at hjoined
  rw [hjoined, ByteArray.append_assoc]

/-- The lowest digits of a number to base 256, the least significant first. -/
def digits : (width n : Nat) → List UInt8
  | 0, _ => []
  | width + 1, n => UInt8.ofNat n :: digits width (n / 256)

theorem length_digits (width n : Nat) : (digits width n).length = width := by
  induction width generalizing n with
  | zero => rfl
  | succ width ih => rw [digits, List.length_cons, ih]

theorem littleEndian_digits (width n : Nat) : littleEndian (digits width n) = n % 256 ^ width := by
  induction width generalizing n with
  | zero => simp [digits, littleEndian, Nat.mod_one]
  | succ width ih =>
    have hfirst : (UInt8.ofNat n).toNat = n % 256 := by simp
    rw [digits, littleEndian, ih, hfirst, Nat.pow_succ', Nat.mod_mul]

/-- The digits of the number that bytes stand for are the bytes. -/
theorem digits_littleEndian (bs : List UInt8) : digits bs.length (littleEndian bs) = bs := by
  induction bs with
  | nil => rfl
  | cons b bs ih =>
    have hb := b.toNat_lt
    have hfirst : UInt8.ofNat (b.toNat + 256 * littleEndian bs) = b := by
      apply UInt8.toNat_inj.mp
      rw [UInt8.toNat_ofNat']
      omega
    have hrest : (b.toNat + 256 * littleEndian bs) / 256 = littleEndian bs := by omega
    rw [List.length_cons, littleEndian, digits, hfirst, hrest, ih]

theorem littleEndian_lt (bs : List UInt8) : littleEndian bs < 256 ^ bs.length := by
  have hdigits := littleEndian_digits bs.length (littleEndian bs)
  rw [digits_littleEndian] at hdigits
  rw [hdigits]
  exact Nat.mod_lt _ (Nat.pow_pos (by decide))

/-- The eight bytes of a word, the least significant first. -/
def wordBytes (w : UInt64) : ByteArray := ⟨(digits slotSize w.toNat).toArray⟩

@[simp]
theorem size_wordBytes (w : UInt64) : (wordBytes w).size = slotSize := by
  simp [wordBytes, ByteArray.size, length_digits]

theorem littleEndian_wordBytes (w : UInt64) : littleEndian (wordBytes w).data.toList = w.toNat :=
  (littleEndian_digits slotSize w.toNat).trans (Nat.mod_eq_of_lt w.toNat_lt)

theorem wordBytes_ofNat {b : ByteArray} (h : b.size = slotSize) :
    wordBytes (UInt64.ofNat (littleEndian b.data.toList)) = b := by
  have hlength : b.data.toList.length = slotSize := h
  have hdigits := digits_littleEndian b.data.toList
  have hlt : littleEndian b.data.toList < 2 ^ 64 := by
    have hlt := littleEndian_lt b.data.toList
    rw [hlength] at hlt
    exact hlt
  rw [hlength] at hdigits
  rw [wordBytes, UInt64.toNat_ofNat', Nat.mod_eq_of_lt hlt, hdigits]

@[simp]
theorem size_joined_wordBytes (ws : List UInt64) :
    (joined (ws.map wordBytes)).size = slotSize * ws.length := by
  induction ws with
  | nil => rfl
  | cons w ws ih =>
    rw [List.map_cons, joined, ByteArray.size_append, size_wordBytes, ih, List.length_cons,
      Nat.mul_succ, Nat.add_comm]

/-- A length is read back from the signed word that it was written into. -/
theorem toInt_of_lt_halfLimit {n : Nat} (h : n < halfLimit) :
    (UInt64.ofNat n).toInt64.toInt = n := by
  rw [UInt64.toInt64_ofNat']
  apply Int64.toInt_ofNat_of_lt
  simp only [halfLimit] at h
  omega

namespace Span

theorem bytes_append (pre b suf : ByteArray) :
    (⟨pre ++ b ++ suf, pre.size⟩ : Span).bytes b.size = .ok b := by
  rw [bytes_eq_ok_iff]
  constructor
  · simp only [ByteArray.size_append]
    omega
  · have hmid := ByteArray.extract_append_size_add (a := pre) (b := b ++ suf) (i := 0) (j := b.size)
    rw [Nat.add_zero, ByteArray.extract_append_eq_left rfl, ← ByteArray.append_assoc] at hmid
    exact hmid.symm

/-- A word is read where its bytes are, and nowhere else. -/
theorem word_eq_ok_iff {s : Span} {w : UInt64} :
    s.word = .ok w ↔ s.bytes slotSize = .ok (wordBytes w) := by
  unfold word number
  cases hbytes : s.bytes slotSize with
  | error e => simp [Except.map]
  | ok b =>
    obtain ⟨hle, hb⟩ := bytes_eq_ok_iff.mp hbytes
    have hsize : b.size = slotSize := by
      rw [hb, ByteArray.size_extract]
      omega
    simp only [Except.map, Except.ok.injEq]
    constructor
    · rintro rfl
      exact (wordBytes_ofNat hsize).symm
    · rintro rfl
      rw [littleEndian_wordBytes, UInt64.ofNat_toNat]

theorem word_append (pre : ByteArray) (w : UInt64) (suf : ByteArray) :
    (⟨pre ++ wordBytes w ++ suf, pre.size⟩ : Span).word = .ok w := by
  have hbytes := bytes_append pre (wordBytes w) suf
  rw [size_wordBytes] at hbytes
  exact word_eq_ok_iff.mpr hbytes

/-- The low byte of a word comes first. -/
theorem byte_of_word {s : Span} {w : UInt64} (h : s.word = .ok w) : s.byte = .ok w.toUInt8 := by
  unfold word number at h
  cases hb : s.bytes slotSize with
  | error e =>
    rw [hb] at h
    cases h
  | ok b =>
    obtain ⟨hle, rfl⟩ := bytes_eq_ok_iff.mp hb
    rw [hb] at h
    obtain rfl := Except.ok.inj h
    simp only [slotSize] at hle
    -- The bytes from the position on begin with one, and both reads begin with that one.
    obtain ⟨x, xs, hrest⟩ := List.exists_cons_of_ne_nil
      (show s.data.data.toList.drop s.position ≠ [] by
        rw [ne_eq, List.drop_eq_nil_iff, Array.length_toList]
        have hsize : s.data.data.size = s.data.size := rfl
        omega)
    have hfirst (n : Nat) : (s.data.extract s.position (s.position + (n + 1))).data.toList =
        x :: xs.take n := by
      rw [ByteArray.data_extract, Array.toList_extract, List.extract_eq_take_drop, hrest,
        Nat.add_sub_cancel_left, List.take_succ_cons]
    have hone : s.bytes 1 = .ok (s.data.extract s.position (s.position + 1)) :=
      bytes_eq_ok_iff.mpr ⟨by omega, rfl⟩
    rw [byte, number, hone]
    have hlow : (UInt64.ofNat (x.toNat + 256 * littleEndian (xs.take 7))).toUInt8 = x := by
      apply UInt8.toNat_inj.mp
      have hx := x.toNat_lt
      simp only [UInt64.toNat_toUInt8, UInt64.toNat_ofNat']
      omega
    simp only [Except.map, hfirst 0, hfirst 7, littleEndian, hlow]
    simp [littleEndian]

theorem wordAt_joined {ws : List UInt64} {i : Nat} {w : UInt64} (h : ws[i]? = some w)
    (suf : ByteArray) (position : Nat) (hposition : position = slotSize * i) :
    (⟨joined (ws.map wordBytes) ++ suf, position⟩ : Span).word = .ok w := by
  have hpart : (ws.map wordBytes)[i]? = some (wordBytes w) := by simp [h]
  have hi := (List.getElem?_eq_some_iff.mp h).choose
  have hsize : (joined ((ws.map wordBytes).take i)).size = slotSize * i := by
    rw [← List.map_take, size_joined_wordBytes, List.length_take, Nat.min_eq_left (by omega)]
  rw [joined_eq_of_getElem? hpart, ByteArray.append_assoc, hposition, ← hsize]
  exact word_append _ w _

/-- A slot is only read where all of it lies in the buffer. -/
theorem room_of_word {s : Span} {w : UInt64} (h : s.word = .ok w) :
    s.position + slotSize ≤ s.data.size := by
  cases hbytes : s.bytes slotSize with
  | error e =>
    rw [word, number, hbytes] at h
    cases h
  | ok b => exact (bytes_eq_ok_iff.mp hbytes).1

theorem room_of_int {s : Span} {n : Int64} (h : s.int = .ok n) :
    s.position + slotSize ≤ s.data.size := by
  cases hword : s.word with
  | error e =>
    rw [int, hword] at h
    cases h
  | ok w => exact room_of_word hword

theorem room_of_float {s : Span} {x : Binary64} (h : s.float = .ok x) :
    s.position + slotSize ≤ s.data.size := by
  cases hword : s.word with
  | error e =>
    rw [float, hword] at h
    cases h
  | ok w => exact room_of_word hword

end Span

end RowFormat
