import RowFormat.Proofs.ListRegion

namespace RowFormat

/-- The signed word at a position of a buffer. -/
def storedInt (data : ByteArray) (position : Nat) : Int :=
  (UInt64.ofNat (littleEndian (data.extract position (position + slotSize)).data.toList)).toInt64.toInt

theorem Span.word_at {data : ByteArray} {position : Nat} (h : position + slotSize ≤ data.size) :
    ∃ w, (⟨data, position⟩ : Span).word = .ok w ∧ w.toInt64.toInt = storedInt data position := by
  have hbytes : (⟨data, position⟩ : Span).bytes slotSize =
      .ok (data.extract position (position + slotSize)) := bytes_eq_ok_iff.mpr ⟨h, rfl⟩
  refine ⟨.ofNat (littleEndian (data.extract position (position + slotSize)).data.toList), ?_, rfl⟩
  rw [word, number, hbytes]
  rfl

namespace Decoder

/-- The list behind a slot lies in the buffer with its count and the slots of its elements. -/
structure ListTable (span : Span) (descriptor : Descriptor) (region : Span) (count : Nat) : Prop where
  descriptor_eq : span.descriptor = .ok descriptor
  target_eq : descriptor.target span = .ok region
  count_eq : readCount region = .ok count
  room : count * slotSize ≤ region.remaining - slotSize

/-- The slot number `i` behind the count of a list. -/
def elementSlot (region : Span) (i : Nat) : Span := ⟨region.data, region.position + slotSize * (i + 1)⟩

/-- The distance that the slot number `i` of a list holds. -/
def slotDistance (region : Span) (i : Nat) : Int :=
  storedInt region.data (elementSlot region i).position

/-- The size of the string number `i` with its terminator, up to where the next one begins or up to
the end of the region. -/
def exactStringSize (region : Span) (count regionLength i : Nat) : Int :=
  if i + 1 = count then regionLength - (count * slotSize : Nat) - slotDistance region i
  else slotDistance region (i + 1) - slotDistance region i + slotSize

/-- A text is the string number `i` of a list: it lies in the buffer, at the distance and of the size
that the slots say, but for its terminator. -/
structure IsListString (region : Span) (count regionLength i : Nat) (text : String) : Prop where
  distance_nonneg : 0 ≤ slotDistance region i
  one_le_size : 1 ≤ exactStringSize region count regionLength i
  inside : (elementSlot region i).position + slotDistance region i +
    exactStringSize region count regionLength i - 1 ≤ region.data.size
  bytes_eq : region.data.extract ((elementSlot region i).position + slotDistance region i).toNat
    ((elementSlot region i).position + slotDistance region i +
      exactStringSize region count regionLength i - 1).toNat = text.toByteArray

/-- Whether a number is a signed word. -/
def IsSignedWord (n : Int) : Prop := -signedLimit ≤ n ∧ n < signedLimit

theorem wordDifference?_eq_some_iff {a b c : Int} :
    wordDifference? a b = some c ↔ c = a - b ∧ IsSignedWord c := by
  unfold wordDifference?
  split
  next h =>
    simp only [Option.some.injEq]
    constructor
    · rintro rfl
      exact ⟨rfl, h⟩
    · rintro ⟨rfl, _⟩
      rfl
  next h =>
    simp only [reduceCtorEq, false_iff]
    rintro ⟨rfl, hword⟩
    exact h hword

/-- Of two differences one after the other, both have to be signed words. -/
theorem wordDifference?_bind_eq_some_iff {a b c n e : Int} {f : Int → Option Int}
    (h : f (a - b) = wordDifference? c e) :
    (wordDifference? a b).bind f = some n ↔
      IsSignedWord (a - b) ∧ n = c - e ∧ IsSignedWord n := by
  rw [← wordDifference?_eq_some_iff, ← h, Option.bind_eq_some_iff]
  constructor
  · rintro ⟨first, hfirst, hn⟩
    obtain ⟨rfl, hword⟩ := wordDifference?_eq_some_iff.mp hfirst
    exact ⟨hword, hn⟩
  · rintro ⟨hword, hn⟩
    exact ⟨a - b, wordDifference?_eq_some_iff.mpr ⟨rfl, hword⟩, hn⟩

variable {span region : Span} {descriptor : Descriptor} {count i : Nat}

theorem ListTable.data_eq (h : ListTable span descriptor region count) : region.data = span.data := by
  rw [(Span.advance_eq_ok_iff.mp h.target_eq).2]

theorem ListTable.slot_inside (h : ListTable span descriptor region count) (hi : i < count) :
    (elementSlot region i).position + slotSize ≤ region.data.size := by
  have hroom := h.room
  simp only [Span.remaining, elementSlot, slotSize] at hroom ⊢
  omega

/-- A slot of the list and the distance in it. -/
theorem ListTable.word_slot (h : ListTable span descriptor region count) (hi : i < count) :
    ∃ w, (elementSlot region i).word = .ok w ∧ w.toInt64.toInt = slotDistance region i :=
  Span.word_at (h.slot_inside hi)

/-- The next slot, seen from a slot. -/
theorem ListTable.wordAt_slot (h : ListTable span descriptor region count) (hi : i + 1 < count) :
    ∃ w, (elementSlot region i).wordAt slotSize = .ok w ∧
      w.toInt64.toInt = slotDistance region (i + 1) := by
  obtain ⟨w, hw, hdistance⟩ := h.word_slot hi
  have hinside := h.slot_inside hi
  have hnext : (elementSlot region i).advance slotSize = .ok (elementSlot region (i + 1)) := by
    rw [Span.advance_eq_ok_iff]
    simp only [elementSlot, slotSize, Span.mk.injEq, true_and] at hinside ⊢
    omega
  refine ⟨w, ?_, hdistance⟩
  simp only [Span.wordAt, hnext, bind, Except.bind, hw]

variable {regionLength : Nat} {size : Int} {ds : Diagnostics}

/-- The first of the two differences that the size of a string is computed by. -/
def firstDifference (region : Span) (count regionLength i : Nat) : Int :=
  if i + 1 = count then regionLength - (count * slotSize : Nat) else slotDistance region i - slotSize

/-- The size of a string is found iff both differences are signed words, and then it is exact. -/
theorem stringSize_eq_ok_iff (h : ListTable span descriptor region count)
    (hdata : region.data.size < signedLimit) (hi : i < count) :
    stringSize count regionLength i (slotDistance region i) (elementSlot region i) =
        ⟨.ok size, ds⟩ ↔
      ds = [] ∧ IsSignedWord (firstDifference region count regionLength i) ∧
        size = exactStringSize region count regionLength i ∧ IsSignedWord size := by
  by_cases hlast : i + 1 = count
  · have hcount : count * slotSize < signedLimit := by
      have hroom := h.room
      rw [Span.remaining] at hroom
      omega
    have hdifferences := wordDifference?_bind_eq_some_iff (n := size)
      (f := (wordDifference? · (slotDistance region i)))
      (rfl : _ = wordDifference? (regionLength - (count * slotSize : Nat)) (slotDistance region i))
    simp only [stringSize, firstDifference, exactStringSize, if_pos hlast, if_pos hcount,
      Decoding.pure_eq, Decoding.bind_eq, Decoding.ok_bind, ← hdifferences]
    cases (wordDifference? regionLength (count * slotSize : Nat)).bind
        (wordDifference? · (slotDistance region i)) with
    | none => simp [Decoding.fail]
    | some found => simp [Decoding.ok, eq_comm, and_comm]
  · obtain ⟨w, hnext, hdistance⟩ := h.wordAt_slot (i := i) (by omega)
    have hexact : slotDistance region (i + 1) - slotDistance region i + slotSize =
        slotDistance region (i + 1) - (slotDistance region i - slotSize) := by omega
    have hdifferences := wordDifference?_bind_eq_some_iff (n := size)
      (f := (wordDifference? (slotDistance region (i + 1)) ·))
      (rfl : _ = wordDifference? (slotDistance region (i + 1)) (slotDistance region i - slotSize))
    simp only [stringSize, firstDifference, exactStringSize, if_neg hlast, hnext, hdistance, hexact,
      Decoding.access_ok, Decoding.pure_eq, Decoding.bind_eq, Decoding.ok_bind, ← hdifferences]
    cases (wordDifference? (slotDistance region i) slotSize).bind
        (wordDifference? (slotDistance region (i + 1)) ·) with
    | none => simp [Decoding.fail]
    | some found => simp [Decoding.ok, eq_comm, and_comm]

theorem eq_toByteArray_of_readText {bytes : ByteArray} {text : String}
    (h : readText bytes = .ok text) : bytes = text.toByteArray := by
  unfold readText String.fromUTF8? at h
  by_cases hvalid : bytes.IsValidUTF8
  · simp only [dif_pos hvalid] at h
    cases h
    rfl
  · simp only [dif_neg hvalid] at h
    cases h

/-- A string of a list, in numbers that are known not to be negative. -/
theorem isListString_iff {text : String} :
    IsListString region count regionLength i text ↔
      ∃ offset length : Nat, slotDistance region i = offset ∧
        exactStringSize region count regionLength i = (length + 1 : Nat) ∧
        (elementSlot region i).position + offset + length ≤ region.data.size ∧
        region.data.extract ((elementSlot region i).position + offset)
          ((elementSlot region i).position + offset + length) = text.toByteArray := by
  generalize hstart : (elementSlot region i).position = position
  constructor
  · rintro ⟨hdistance, hsize, hinside, hbytes⟩
    obtain ⟨offset, hoffset⟩ := Int.eq_ofNat_of_zero_le hdistance
    obtain ⟨length, hlength⟩ := Int.eq_ofNat_of_zero_le (Int.sub_nonneg.mpr hsize)
    have hsize : exactStringSize region count regionLength i = (length + 1 : Nat) := by omega
    have hbegin : ((position : Int) + offset).toNat = position + offset := by omega
    have hend : ((position : Int) + offset + (length + 1 : Nat) - 1).toNat =
        position + offset + length := by omega
    rw [hstart, hoffset, hsize] at hinside hbytes
    rw [hbegin, hend] at hbytes
    exact ⟨offset, length, hoffset, hsize, by omega, hbytes⟩
  · rintro ⟨offset, length, hoffset, hsize, hinside, hbytes⟩
    have hbegin : ((position : Int) + offset).toNat = position + offset := by omega
    have hend : ((position : Int) + offset + (length + 1 : Nat) - 1).toNat =
        position + offset + length := by omega
    refine ⟨by omega, by omega, ?_, ?_⟩
    · rw [hstart, hoffset, hsize]
      omega
    · rw [hstart, hoffset, hsize, hbegin, hend]
      exact hbytes

theorem decodeText_eq_ok_iff {bytes : ByteArray} {position : Nat} {text : String} :
    decodeText bytes position = ⟨.ok text, ds⟩ ↔ ds = [] ∧ bytes = text.toByteArray := by
  constructor
  · intro h
    cases hread : readText bytes with
    | error e =>
      rw [decodeText, hread] at h
      cases h
    | ok read =>
      rw [decodeText, hread] at h
      cases h
      exact ⟨rfl, eq_toByteArray_of_readText hread⟩
  · rintro ⟨rfl, rfl⟩
    rw [decodeText, readText_toByteArray]
    rfl

/-- What is read as a string of a list is that string. -/
theorem isListString_of_readListString (h : ListTable span descriptor region count)
    (hdata : region.data.size < signedLimit) (hi : i < count) {value : Value}
    (hread : readListString count regionLength i (elementSlot region i) = ⟨.ok value, ds⟩) :
    ds = [] ∧ ∃ text, value = .str text ∧ IsListString region count regionLength i text := by
  obtain ⟨w, hw, hdistance⟩ := h.word_slot hi
  simp only [readListString, Span.int, hw, Except.map, Decoding.access_ok, Decoding.bind_eq,
    Decoding.ok_bind, hdistance] at hread
  obtain ⟨size, es, fs, hsize, hread, rfl⟩ := Decoding.bind_eq_ok_iff.mp hread
  obtain ⟨rfl, _, rfl, _⟩ := (stringSize_eq_ok_iff h hdata hi).mp hsize
  split at hread
  next => cases hread
  next hpositive =>
    obtain ⟨target, htarget, hread⟩ := Decoding.access_bind_eq_ok_iff.mp hread
    obtain ⟨bytes, hbytes, hread⟩ := Decoding.access_bind_eq_ok_iff.mp hread
    obtain ⟨text, _, _, htext, hvalue, rfl⟩ := Decoding.bind_eq_ok_iff.mp hread
    obtain ⟨rfl, hcontent⟩ := decodeText_eq_ok_iff.mp htext
    cases hvalue
    rw [Span.advanceSigned, hdistance] at htarget
    split at htarget
    next => cases htarget
    next hnonneg =>
      obtain ⟨_, rfl⟩ := Span.advance_eq_ok_iff.mp htarget
      obtain ⟨hinside, rfl⟩ := Span.bytes_eq_ok_iff.mp hbytes
      exact ⟨rfl, text, rfl, isListString_iff.mpr ⟨(slotDistance region i).toNat,
        (exactStringSize region count regionLength i - 1).toNat, by omega, by omega, hinside, hcontent⟩⟩

/-- Every string of a list is read. -/
theorem readListString_of_isListString (h : ListTable span descriptor region count)
    (hdata : region.data.size < signedLimit) (hlength : regionLength < halfLimit) (hi : i < count)
    {text : String} (htext : IsListString region count regionLength i text) :
    readListString count regionLength i (elementSlot region i) = .ok (.str text) := by
  obtain ⟨w, hw, hdistance⟩ := h.word_slot hi
  obtain ⟨offset, length, hoffset, hexact, hinside, hbytes⟩ := isListString_iff.mp htext
  have hsize : stringSize count regionLength i (slotDistance region i) (elementSlot region i) =
      .ok (length + 1 : Nat) := by
    have hroom := h.room
    have hrange := w.toInt64.toInt_lt
    refine (stringSize_eq_ok_iff h hdata hi).mpr ⟨rfl, ?_, hexact.symm, ?_⟩
    · simp only [IsSignedWord, firstDifference, Span.remaining, slotSize, signedLimit, halfLimit] at *
      split <;> omega
    · simp only [IsSignedWord, elementSlot, slotSize, signedLimit] at *
      omega
  have htarget : (elementSlot region i).advanceSigned w.toInt64 =
      .ok ⟨region.data, (elementSlot region i).position + offset⟩ := by
    rw [Span.advanceSigned, hdistance, hoffset, if_neg (by omega), Int.toNat_natCast,
      Span.advance_eq_ok_iff]
    exact ⟨Nat.le_trans (Nat.le_add_right _ _) hinside, rfl⟩
  have hread : Span.bytes ⟨region.data, (elementSlot region i).position + offset⟩ length =
      .ok text.toByteArray := Span.bytes_eq_ok_iff.mpr ⟨hinside, hbytes.symm⟩
  have hpositive : ¬ ((length + 1 : Nat) : Int) < 1 := by omega
  have hshort : (((length + 1 : Nat) : Int) - 1).toNat = length := by omega
  have hdecoded : decodeText text.toByteArray ((elementSlot region i).position + offset) = .ok text :=
    decodeText_eq_ok_iff.mpr ⟨rfl, rfl⟩
  simp only [readListString, Span.int, hw, Except.map, Decoding.access_ok, Decoding.bind_eq,
    Decoding.ok_bind, hdistance, hsize, if_neg hpositive, hshort, htarget, hread, hdecoded,
    Decoding.pure_eq]

/-- A string of a list is read iff, in numbers without bounds, its distance is not negative, its size
is at least one, and its bytes lie in the buffer and are a text; and it is read as that text. A buffer
is shorter than any signed word can say. -/
theorem readListString_eq_ok_iff (h : ListTable span descriptor region count)
    (hdata : span.data.size < signedLimit) (hi : i < count) {value : Value} :
    readListString count descriptor.length.toNat i (elementSlot region i) = ⟨.ok value, ds⟩ ↔
      ds = [] ∧ ∃ text, value = .str text ∧
        IsListString region count descriptor.length.toNat i text := by
  rw [← h.data_eq] at hdata
  constructor
  · exact isListString_of_readListString h hdata hi
  · rintro ⟨rfl, text, rfl, htext⟩
    exact readListString_of_isListString h hdata descriptor.length.toNat_lt hi htext

/-- A list of `a` and `bc`, whose region claims to have one byte more than the buffer: the terminator
of the last string is missing. -/
def cutOffTable : ByteArray :=
  ⟨#[8, 0, 0, 0, 29, 0, 0, 0, 2, 0, 0, 0, 0, 0, 0, 0, 16, 0, 0, 0, 0, 0, 0, 0,
    10, 0, 0, 0, 0, 0, 0, 0, 97, 0, 98, 99]⟩

theorem readListString_eq_ok_iff_cutOffTable :
    ListTable (.ofBytes cutOffTable) ⟨8, 29⟩ ⟨cutOffTable, 8⟩ 2 ∧ cutOffTable.size < signedLimit ∧
      1 < 2 ∧ readListString 2 29 1 (elementSlot ⟨cutOffTable, 8⟩ 1) = ⟨.ok (.str "bc"), []⟩ ∧
      slotDistance ⟨cutOffTable, 8⟩ 1 = 10 ∧ exactStringSize ⟨cutOffTable, 8⟩ 2 29 1 = 3 ∧
      IsListString ⟨cutOffTable, 8⟩ 2 29 1 "bc" := by
  have htable : ListTable (.ofBytes cutOffTable) ⟨8, 29⟩ ⟨cutOffTable, 8⟩ 2 :=
    ⟨rfl, rfl, rfl, by decide⟩
  have hread : readListString 2 29 1 (elementSlot ⟨cutOffTable, 8⟩ 1) = ⟨.ok (.str "bc"), []⟩ := by rfl
  have hstring := (readListString_eq_ok_iff htable (by decide) (by decide)).mp hread
  obtain ⟨_, text, htext, hstring⟩ := hstring
  cases htext
  exact ⟨htable, by decide, by decide, hread, by rfl, by rfl, hstring⟩

/-- What is read from slots one after the other is what each of them gives on its own, with all that
they report. -/
theorem exists_notes_of_readCells {read : Nat → Span → Decoding Value} {n i : Nat} {cell : Span}
    {items : List Value} (h : readCells read n i cell = ⟨.ok items, ds⟩) :
    items.length = n ∧ ∃ notes : Nat → Diagnostics, ds = (List.range n).flatMap notes ∧
      ∀ j item, items[j]? = some item →
        read (i + j) ⟨cell.data, slotSize * j + cell.position⟩ = ⟨.ok item, notes j⟩ := by
  induction n generalizing i cell items ds with
  | zero =>
    cases h
    exact ⟨rfl, fun _ => [], rfl, fun j item hitem => by simp at hitem⟩
  | succ n ih =>
    obtain ⟨first, es, _, hfirst, hbehind, rfl⟩ := Decoding.bind_eq_ok_iff.mp h
    obtain ⟨next, hnext, hbehind⟩ := Decoding.access_bind_eq_ok_iff.mp hbehind
    obtain ⟨rest, fs, _, hrest, hitems, rfl⟩ := Decoding.bind_eq_ok_iff.mp hbehind
    cases hitems
    obtain ⟨_, rfl⟩ := Span.advance_eq_ok_iff.mp hnext
    obtain ⟨hlength, notes, rfl, hread⟩ := ih hrest
    refine ⟨by rw [List.length_cons, hlength], fun j => if j = 0 then es else notes (j - 1), ?_, ?_⟩
    · simp [List.range_succ_eq_map, List.flatMap_map]
    · intro j item hitem
      cases j with
      | zero =>
        obtain rfl := Option.some.inj hitem
        rw [Nat.mul_zero, Nat.zero_add]
        exact hfirst
      | succ j =>
        have hread := hread j item hitem
        rw [Nat.add_assoc, Nat.add_comm 1, ← Nat.add_assoc, Nat.add_comm cell.position,
          ← Nat.add_assoc, ← Nat.mul_succ] at hread
        exact hread

/-- The preimages of the items of a list, found one by one. -/
theorem exists_eq_map_of_getElem? {α β : Type} {f : β → α} {P : Nat → β → Prop} {items : List α}
    (h : ∀ i item, items[i]? = some item → ∃ b, item = f b ∧ P i b) :
    ∃ bs : List β, items = bs.map f ∧ ∀ i b, bs[i]? = some b → P i b := by
  induction items generalizing P with
  | nil => exact ⟨[], rfl, fun i b hb => by simp at hb⟩
  | cons item items ih =>
    obtain ⟨b, rfl, hb⟩ := h 0 item rfl
    obtain ⟨bs, rfl, hbs⟩ := ih (P := fun i => P (i + 1)) fun i item hitem => h (i + 1) item hitem
    refine ⟨b :: bs, rfl, fun i c hc => ?_⟩
    cases i with
    | zero =>
      obtain rfl := Option.some.inj hc
      exact hb
    | succ i => exact hbs i c hc

/-- Reading a count reports nothing. -/
theorem readCount_eq_ok {n : Nat} (h : readCount region = ⟨.ok n, ds⟩) :
    ds = [] ∧ readCount region = .ok n := by
  obtain ⟨count, _, hn⟩ := Decoding.access_bind_eq_ok_iff.mp h
  split at hn
  next => cases hn
  next =>
    cases hn
    exact ⟨rfl, h⟩

/-- A list is only read behind its count and slots. -/
theorem exists_listTable {element : Schema} {read : Reader} {depth : Nat} {value : Value}
    (h : readSlotList element read span depth = ⟨.ok value, ds⟩) :
    ∃ descriptor region count, ListTable span descriptor region count := by
  obtain ⟨descriptor, hdescriptor, htarget⟩ := Decoding.access_bind_eq_ok_iff.mp h
  obtain ⟨region, htarget, hregion⟩ := Decoding.access_bind_eq_ok_iff.mp htarget
  obtain ⟨count, _, _, hcount, hitems, _⟩ := Decoding.bind_eq_ok_iff.mp hregion
  by_cases hroom : count * slotSize ≤ region.remaining - slotSize
  · exact ⟨descriptor, region, count, hdescriptor, htarget, (readCount_eq_ok hcount).2, hroom⟩
  · rw [if_neg hroom] at hitems
    split at hitems
    next => cases hitems
    next => cases hitems

/-- The strings of a list are read from its slots, from the first one on. -/
theorem readSlotList_str (h : ListTable span descriptor region count) (read : Reader) (depth : Nat) :
    readSlotList .str read span depth =
      (readCells (readListString count descriptor.length.toNat) count 0 (elementSlot region 0)).bind
        fun items => .ok (.list items) := by
  obtain ⟨n, hn, _⟩ := Decoding.access_bind_eq_ok_iff.mp h.count_eq
  have hfirst : region.advance slotSize = .ok (elementSlot region 0) :=
    Span.advance_eq_ok_iff.mpr ⟨Span.room_of_int hn, rfl⟩
  simp only [readSlotList, h.descriptor_eq, h.target_eq, h.count_eq, if_pos h.room, hfirst,
    Decoding.access_ok, Decoding.bind_eq, Decoding.ok_bind]
  rfl

/-- A slot, seen from the first one. -/
theorem elementSlot_eq (region : Span) (i : Nat) :
    (⟨(elementSlot region 0).data, slotSize * i + (elementSlot region 0).position⟩ : Span) =
      elementSlot region i := by
  simp only [elementSlot, slotSize, Span.mk.injEq, true_and]
  omega

/-- A list of strings is read iff its count and its slots lie in the buffer, and each of its strings
does. -/
theorem readList_str_eq_ok_iff {d : Decoder} {read : Reader} {depth : Nat}
    (hdata : span.data.size < signedLimit) {value : Value} :
    d.readList .str read span depth = ⟨.ok value, ds⟩ ↔
      depth < d.maxDepth ∧ ds = [] ∧
        ∃ (descriptor : Descriptor) (region : Span) (texts : List String),
          ListTable span descriptor region texts.length ∧ value = .list (texts.map .str) ∧
            ∀ i text, texts[i]? = some text →
              IsListString region texts.length descriptor.length.toNat i text := by
  constructor
  · intro h
    obtain ⟨_, es, fs, hopen, hlist, rfl⟩ := Decoding.bind_eq_ok_iff.mp h
    have hlist : readSlotList .str read span depth = ⟨.ok value, fs⟩ := hlist
    obtain ⟨descriptor, region, count, htable⟩ := exists_listTable hlist
    have hdepth : depth < d.maxDepth ∧ es = [] := by
      unfold checkDepth at hopen
      split at hopen
      next hdepth =>
        cases hopen
        exact ⟨hdepth, rfl⟩
      next => cases hopen
    rw [readSlotList_str htable] at hlist
    obtain ⟨items, gs, _, hitems, hvalue, rfl⟩ := Decoding.bind_eq_ok_iff.mp hlist
    cases hvalue
    obtain ⟨rfl, notes, rfl, hread⟩ := exists_notes_of_readCells hitems
    rw [← htable.data_eq] at hdata
    have hstring : ∀ j item, items[j]? = some item → notes j = [] ∧ ∃ text, item = .str text ∧
        IsListString region items.length descriptor.length.toNat j text := by
      intro j item hitem
      have hj := (List.getElem?_eq_some_iff.mp hitem).choose
      have hread := hread j item hitem
      rw [Nat.zero_add, elementSlot_eq] at hread
      exact isListString_of_readListString htable hdata hj hread
    have hquiet : (List.range items.length).flatMap notes = [] := by
      rw [List.flatMap_eq_nil_iff]
      intro j hj
      exact (hstring j _ (List.getElem?_eq_getElem (List.mem_range.mp hj))).1
    obtain ⟨texts, rfl, htexts⟩ := exists_eq_map_of_getElem? fun j item hitem =>
      (hstring j item hitem).2
    rw [List.length_map] at htable htexts
    rw [hdepth.2, hquiet]
    exact ⟨hdepth.1, rfl, descriptor, region, texts, htable, rfl, htexts⟩
  · rintro ⟨hdepth, rfl, descriptor, region, texts, htable, rfl, htexts⟩
    rw [← htable.data_eq] at hdata
    have hcells : readCells (readListString texts.length descriptor.length.toNat)
        (texts.map Value.str).length 0 (elementSlot region 0) = .ok (texts.map .str) := by
      obtain ⟨n, hn, _⟩ := Decoding.access_bind_eq_ok_iff.mp htable.count_eq
      have hfirst := Span.room_of_int hn
      have hroom := htable.room
      apply readCells_eq_ok
      · simp only [List.length_map, Span.remaining, slotSize] at hfirst hroom ⊢
        omega
      · intro j item hitem
        rw [List.getElem?_map] at hitem
        obtain ⟨text, htext, rfl⟩ := Option.map_eq_some_iff.mp hitem
        have hj := (List.getElem?_eq_some_iff.mp htext).choose
        have hread := readListString_of_isListString htable hdata descriptor.length.toNat_lt hj
          (htexts j text htext)
        rw [Nat.zero_add]
        rw [← elementSlot_eq] at hread
        exact hread
    rw [List.length_map] at hcells
    have hopen : d.checkDepth depth span = .ok () := by rw [checkDepth, if_pos hdepth]
    have hlist : readSlotList .str read span depth = .ok (.list (texts.map .str)) := by
      rw [readSlotList_str htable, hcells, Decoding.ok_bind]
    simp only [readList, hopen, Decoding.ofExcept_ok, Decoding.bind_eq, Decoding.ok_bind]
    exact hlist

end Decoder

end RowFormat
