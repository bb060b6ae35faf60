import RowFormat.Proofs.DictRoundTrip
import RowFormat.Proofs.Size

namespace RowFormat

/-- The places that are come to from the start of a buffer by going forward. -/
inductive Span.Reached (data : ByteArray) : Span → Prop
  | start : Reached data (.ofBytes data)
  | advance {s t : Span} {offset : Nat} (h : Reached data s) (hstep : s.advance offset = .ok t) :
      Reached data t
  | advanceSigned {s t : Span} {offset : Int64} (h : Reached data s)
      (hstep : s.advanceSigned offset = .ok t) : Reached data t

namespace Span

variable {data : ByteArray} {s t : Span}

/-- A step forward stays inside the buffer. -/
theorem inBuffer_of_advance {offset : Nat} (h : s.advance offset = .ok t) (hs : s.data = data) :
    t.data = data ∧ t.position ≤ data.size := by
  subst hs
  obtain ⟨hle, rfl⟩ := advance_eq_ok_iff.mp h
  exact ⟨rfl, hle⟩

theorem inBuffer_of_advanceSigned {offset : Int64} (h : s.advanceSigned offset = .ok t)
    (hs : s.data = data) : t.data = data ∧ t.position ≤ data.size := by
  unfold Span.advanceSigned at h
  split at h
  next => cases h
  next => exact inBuffer_of_advance h hs

/-- The places that are reached are those up to the end of the buffer. -/
theorem reached_iff : Reached data s ↔ s.data = data ∧ s.position ≤ data.size := by
  constructor
  · intro h
    induction h with
    | start => exact ⟨rfl, Nat.zero_le _⟩
    | advance _ hstep ih => exact inBuffer_of_advance hstep ih.1
    | advanceSigned _ hstep ih => exact inBuffer_of_advanceSigned hstep ih.1
  · rintro ⟨rfl, hle⟩
    have hstep : (ofBytes s.data).advance s.position = .ok s := by
      rw [advance_eq_ok_iff, ofBytes, Nat.zero_add]
      exact ⟨hle, rfl⟩
    exact .advance .start hstep

end Span

/-- A buffer is a part of it between the parts in front of that and behind it. -/
theorem extract_split {b : ByteArray} {i j : Nat} (hij : i ≤ j) (hj : j ≤ b.size) :
    b.extract 0 i ++ b.extract i j ++ b.extract j b.size = b := by
  rw [ByteArray.extract_append_extract, Nat.zero_min, Nat.max_eq_right hij,
    ByteArray.extract_append_extract, Nat.zero_min, Nat.max_eq_right hj, ByteArray.extract_zero_size]

namespace Descriptor

theorem toWord_ofWord (w : UInt64) : (ofWord w).toWord = w := by
  have hw := w.toNat_lt
  apply UInt64.toNat_inj.mp
  simp only [toWord, ofWord, UInt64.toNat_ofNat', UInt32.toNat_ofNat', halfLimit]
  omega

/-- The length is the high half of the word and the offset the low one. -/
theorem toWord_eq_or (d : Descriptor) :
    d.toWord = d.length.toUInt64 <<< 32 ||| d.offset.toUInt64 := by
  have hoffset := d.offset.toNat_lt
  have hlength := d.length.toNat_lt
  apply UInt64.toNat_inj.mp
  have hshift : (d.length.toUInt64 <<< 32).toNat = d.length.toNat <<< 32 := by
    have hamount : (32 : UInt64).toNat % 64 = 32 := by decide
    rw [UInt64.toNat_shiftLeft, UInt32.toNat_toUInt64, hamount, Nat.shiftLeft_eq]
    omega
  have hsum := Nat.shiftLeft_add_eq_or_of_lt hoffset d.length.toNat
  rw [UInt64.toNat_or, UInt32.toNat_toUInt64, hshift, ← hsum, toWord, UInt64.toNat_ofNat',
    Nat.shiftLeft_eq]
  simp only [halfLimit]
  omega

/-- The end of a payload fits a word. -/
theorem toNat_add_eq_stop (d : Descriptor) :
    (d.offset.toUInt64 + d.length.toUInt64).toNat = d.stop := by
  have hoffset := d.offset.toNat_lt
  have hlength := d.length.toNat_lt
  simp only [UInt64.toNat_add, UInt32.toNat_toUInt64, stop]
  omega

variable {d : Descriptor} {s : Span} {b : ByteArray}

theorem payload_eq_ok_iff : d.payload s = .ok b ↔ s.position + d.stop ≤ s.data.size ∧
    b = s.data.extract (s.position + d.offset.toNat) (s.position + d.stop) := by
  rw [stop, ← Nat.add_assoc]
  constructor
  · intro h
    cases htarget : d.target s with
    | error e => simp [payload, htarget, bind, Except.bind] at h
    | ok start =>
      simp only [payload, htarget, bind, Except.bind] at h
      obtain ⟨-, rfl⟩ := Span.advance_eq_ok_iff.mp htarget
      exact Span.bytes_eq_ok_iff.mp h
  · intro h
    have htarget : d.target s = .ok ⟨s.data, s.position + d.offset.toNat⟩ :=
      Span.advance_eq_ok_iff.mpr ⟨by omega, rfl⟩
    simp only [payload, htarget, bind, Except.bind]
    exact Span.bytes_eq_ok_iff.mpr h

/-- A payload is there exactly if its end is. -/
theorem exists_payload_iff (hs : s.position ≤ s.data.size) :
    (∃ b, d.payload s = .ok b) ↔ d.stop ≤ s.remaining := by
  simp only [payload_eq_ok_iff, exists_and_left, exists_eq, and_true, Span.remaining]
  omega

/-- A payload is what its descriptor leads to. -/
theorem payload_eq_ok_iff_leadsTo : d.payload s = .ok b ↔ d.LeadsTo s b := by
  constructor
  · intro h
    obtain ⟨hle, rfl⟩ := payload_eq_ok_iff.mp h
    rw [stop] at hle ⊢
    refine ⟨?_, s.data.extract 0 (s.position + d.offset.toNat),
      s.data.extract (s.position + (d.offset.toNat + d.length.toNat)) s.data.size, ?_, ?_⟩
    · rw [ByteArray.size_extract]
      omega
    · exact (extract_split (by omega) hle).symm
    · rw [ByteArray.size_extract]
      omega
  · exact LeadsTo.payload

end Descriptor

theorem Span.descriptor_eq_ok_iff {s : Span} {d : Descriptor} :
    s.descriptor = .ok d ↔ s.word = .ok d.toWord := by
  unfold Span.descriptor
  cases s.word with
  | error e => simp [Except.map]
  | ok w =>
    simp only [Except.map, Except.ok.injEq]
    constructor
    · rintro rfl
      exact (Descriptor.toWord_ofWord w).symm
    · rintro rfl
      exact Descriptor.ofWord_toWord d

/-- From a place on, the same bytes are read if all in front of it is left out. -/
theorem Span.bytes_rest {s : Span} {n : Nat} {b : ByteArray} (hs : s.position ≤ s.data.size) :
    (ofBytes (s.data.extract s.position s.data.size)).bytes n = .ok b ↔ s.bytes n = .ok b := by
  rw [bytes_eq_ok_iff, bytes_eq_ok_iff, ofBytes, ByteArray.size_extract, ByteArray.extract_extract,
    Nat.zero_add, Nat.add_zero, Nat.min_self]
  have hroom : n ≤ s.data.size - s.position ↔ s.position + n ≤ s.data.size := by omega
  rw [hroom]
  refine and_congr_right fun hle => ?_
  rw [Nat.min_eq_left hle]

/-- The size of a row is refused for its descriptor exactly if the payload cannot be read. -/
theorem Schema.fixedBytes?_iff_payload {schema : Schema} (h : schema.hasDescriptor = true) {s : Span}
    (hs : s.position ≤ s.data.size) :
    schema.fixedBytes? (s.data.extract s.position s.data.size) s.remaining = some slotSize ↔
      ∃ d b, s.descriptor = .ok d ∧ d.payload s = .ok b := by
  have hrest (d : Descriptor) :
      (Span.ofBytes (s.data.extract s.position s.data.size)).descriptor = .ok d ↔
        s.descriptor = .ok d := by
    simp only [Span.descriptor_eq_ok_iff, Span.word_eq_ok_iff, Span.bytes_rest hs]
  simp only [fixedBytes?_eq_some_iff, h, true_and, hrest, exists_and_left,
    Descriptor.exists_payload_iff hs]
  simp

namespace Span.Reached

/-- Wherever a reader can be, it stays inside the buffer. There a descriptor is read exactly if its
word is, its payload exactly if that ends inside the buffer, and a size is found exactly if there is a
payload. -/
theorem payload_iff_stop_le {data : ByteArray} {s : Span} (h : Reached data s) :
    s.data = data ∧ s.position ≤ data.size ∧
      (∀ d : Descriptor,
        d.stop = (d.offset.toUInt64 + d.length.toUInt64).toNat ∧
        ((∃ b, d.payload s = .ok b) ↔ d.stop ≤ s.remaining) ∧
        (∀ b, d.payload s = .ok b ↔ b.size = d.length.toNat ∧
          ∃ pre suf, data = pre ++ b ++ suf ∧ pre.size = s.position + d.offset.toNat) ∧
        d.toWord = d.length.toUInt64 <<< 32 ||| d.offset.toUInt64 ∧
        (s.descriptor = .ok d ↔ s.bytes slotSize = .ok (wordBytes d.toWord)) ∧
        (s.descriptor = .ok d ↔ s.word = .ok d.toWord)) ∧
      ∀ schema : Schema, schema.hasDescriptor = true →
        (schema.fixedBytes? (data.extract s.position data.size) s.remaining = some slotSize ↔
          ∃ d b, s.descriptor = .ok d ∧ d.payload s = .ok b) := by
  obtain ⟨rfl, hs⟩ := reached_iff.mp h
  refine ⟨rfl, hs, fun d => ⟨d.toNat_add_eq_stop.symm, Descriptor.exists_payload_iff hs, fun b => ?_,
    d.toWord_eq_or, ?_, descriptor_eq_ok_iff⟩, fun schema hdescriptor => ?_⟩
  · rw [Descriptor.payload_eq_ok_iff_leadsTo, Descriptor.LeadsTo, eq_comm]
  · rw [descriptor_eq_ok_iff, word_eq_ok_iff]
  · exact Schema.fixedBytes?_iff_payload hdescriptor hs

/-- A slot, a descriptor that skips another slot behind it, and the payload of two bytes. -/
def skippingRow : ByteArray :=
  ⟨#[0, 0, 0, 0, 0, 0, 0, 0, 16, 0, 0, 0, 2, 0, 0, 0, 170, 170, 170, 170, 170, 170, 170, 170, 111, 107]⟩

theorem payload_iff_stop_le_skippingRow :
    Reached skippingRow ⟨skippingRow, 8⟩ ∧ Schema.hasDescriptor .str = true ∧
      (⟨skippingRow, 8⟩ : Span).descriptor = .ok ⟨16, 2⟩ ∧
      (⟨16, 2⟩ : Descriptor).payload ⟨skippingRow, 8⟩ = .ok ⟨#[111, 107]⟩ ∧
      Schema.fixedBytes? .str (skippingRow.extract 8 skippingRow.size) 18 = some slotSize := by
  have hstep : (ofBytes skippingRow).advance 8 = .ok ⟨skippingRow, 8⟩ := rfl
  have hreached : Reached skippingRow ⟨skippingRow, 8⟩ := .advance .start hstep
  have hstr : Schema.hasDescriptor .str = true := rfl
  obtain ⟨-, -, hdescriptors, hsizes⟩ := payload_iff_stop_le hreached
  obtain ⟨-, -, hpayload, -, hbytes, -⟩ := hdescriptors ⟨16, 2⟩
  have hdescriptor := hbytes.mpr rfl
  have hload := (hpayload ⟨#[111, 107]⟩).mpr
    ⟨rfl, skippingRow.extract 0 24, .empty, rfl, rfl⟩
  exact ⟨hreached, hstr, hdescriptor, hload, (hsizes .str hstr).mpr ⟨_, _, hdescriptor, hload⟩⟩

end Span.Reached

end RowFormat
