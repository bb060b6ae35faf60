import RowFormat.Proofs.DictRoundTrip
import RowFormat.Proofs.RowReading
import Mathlib

namespace RowFormat

namespace Stored

variable {xs : List Stored} {x : Stored} {i : Nat}

/-- How far the payload number `i` of a list lies behind its slot. For the number of all elements,
what is counted is the distance of the end from behind the last slot. -/
def distance (xs : List Stored) (i : Nat) : Nat :=
  slotSize * (xs.length - i) + (payloads (xs.take i)).size

/-- The word in a slot of a list, for a payload at a distance from it. -/
def cell (distance : Nat) : Stored → UInt64
  | word w => w
  | payload _ => .ofNat distance

/-- The words of a list in front of its payloads. -/
def cells (xs : List Stored) : List UInt64 :=
  .ofNat xs.length :: xs.mapIdx fun i x => x.cell (distance xs i)

/-- The region of a list. -/
def region (xs : List Stored) : ByteArray := joined ((cells xs).map wordBytes) ++ payloads xs

/-- The slot number `i` of a list whose region lies between two other parts of a buffer. -/
def slotPlace (pre suf : ByteArray) (xs : List Stored) (i : Nat) : Span :=
  ⟨pre ++ region xs ++ suf, slotSize * (i + 1) + pre.size⟩

theorem length_cells : (cells xs).length = xs.length + 1 := by simp [cells]

theorem size_region (xs : List Stored) :
    (region xs).size = slotSize * (xs.length + 1) + distance xs xs.length := by
  simp [region, length_cells, distance]

/-- From one slot to the next, the distance loses a slot and gains a payload. -/
theorem distance_succ (h : xs[i]? = some x) :
    distance xs (i + 1) + slotSize = distance xs i + x.bytes.size := by
  obtain ⟨hi, rfl⟩ := List.getElem?_eq_some_iff.mp h
  have hsize : (payloads (xs.take (i + 1))).size = (payloads (xs.take i)).size + xs[i].bytes.size := by
    rw [List.take_succ_eq_append_getElem hi, payloads, List.map_append, joined_append,
      ByteArray.size_append]
    simp [payloads, joined]
  have hslots : slotSize * (xs.length - i) = slotSize * (xs.length - (i + 1)) + slotSize := by
    rw [← Nat.mul_succ]
    congr 1
    omega
  rw [distance, distance, hsize, hslots]
  omega

theorem distance_le_size (xs : List Stored) (i : Nat) : distance xs i ≤ (region xs).size := by
  have hpayloads : payloads xs = payloads (xs.take i) ++ payloads (xs.drop i) := by
    simp only [payloads]
    rw [← joined_append, ← List.map_append, List.take_append_drop]
  have hsize := congrArg ByteArray.size hpayloads
  have hslots := Nat.mul_le_mul_left slotSize (Nat.sub_le xs.length i)
  rw [ByteArray.size_append] at hsize
  rw [size_region, distance, distance, List.take_length, Nat.mul_add]
  omega

variable (pre suf : ByteArray)

theorem word_region {w : UInt64} (h : (cells xs)[i]? = some w) :
    (⟨pre ++ region xs ++ suf, slotSize * i + pre.size⟩ : Span).word = .ok w :=
  Span.word_inside pre suf ⟨region xs, slotSize * i⟩ w (Span.wordAt_joined h (payloads xs) _ rfl)

theorem word_count : (⟨pre ++ region xs ++ suf, pre.size⟩ : Span).word = .ok (.ofNat xs.length) := by
  have hcount : (cells xs)[0]? = some (.ofNat xs.length) := rfl
  have hword := word_region pre suf hcount
  rw [Nat.mul_zero, Nat.zero_add] at hword
  exact hword

theorem word_cell (h : xs[i]? = some x) :
    (slotPlace pre suf xs i).word =
      .ok (x.cell (distance xs i)) := by
  have hcell : (cells xs)[i + 1]? = some (x.cell (distance xs i)) := by simp [cells, h]
  exact word_region pre suf hcell

/-- The next slot, seen from a slot. -/
theorem wordAt_cell (h : xs[i + 1]? = some x) :
    (slotPlace pre suf xs i).wordAt slotSize =
      .ok (x.cell (distance xs (i + 1))) := by
  have hi := (List.getElem?_eq_some_iff.mp h).choose
  have hsize := size_region xs
  have hword := word_cell pre suf h
  have hplace : (slotPlace pre suf xs i).advance slotSize = .ok (slotPlace pre suf xs (i + 1)) := by
    rw [Span.advance_eq_ok_iff]
    simp only [slotPlace, ByteArray.size_append, Span.mk.injEq, true_and, slotSize] at hsize ⊢
    omega
  simp only [Span.wordAt, hplace, bind, Except.bind]
  exact hword

/-- A payload lies where its slot says. -/
theorem region_eq_of_payload {b : ByteArray} (h : xs[i]? = some (payload b)) :
    ∃ front back, pre ++ region xs ++ suf = front ++ b ++ back ∧
      front.size = slotSize * (i + 1) + pre.size + distance xs i := by
  have hsplit : payloads xs = payloads (xs.take i) ++ b ++ payloads (xs.drop (i + 1)) :=
    payloads_eq_of_getElem? h
  have hi := (List.getElem?_eq_some_iff.mp h).choose
  have hslots : slotSize * (xs.length + 1) = slotSize * (i + 1) + slotSize * (xs.length - i) := by
    rw [← Nat.mul_add]
    congr 1
    omega
  refine ⟨pre ++ joined ((cells xs).map wordBytes) ++ payloads (xs.take i),
    payloads (xs.drop (i + 1)) ++ suf, ?_, ?_⟩
  · rw [region, hsplit]
    simp only [ByteArray.append_assoc]
  · rw [ByteArray.size_append, ByteArray.size_append, size_joined_wordBytes, length_cells, distance]
    omega

end Stored

/-- The region that holds a list of values. -/
def Filler.listRegion (f : Filler) (items : List Value) : ByteArray :=
  Stored.region (items.mapIdx f.stored)

theorem Filler.slots_le_listRegion (f : Filler) (items : List Value) :
    slotSize * (items.length + 1) ≤ (f.listRegion items).size := by
  rw [Filler.listRegion, Stored.size_region, List.length_mapIdx]
  exact Nat.le_add_right _ _

namespace Decoder

variable {d : Decoder} {xs : List Stored} {x : Stored} {b : ByteArray} {i : Nat} (pre suf : ByteArray)

theorem wordDifference?_natCast {m n k : Nat} (h : m = n + k) (hk : k < signedLimit) :
    wordDifference? m n = some (k : Int) := by
  have hdifference : (m : Int) - n = k := by omega
  rw [wordDifference?, hdifference, if_pos (by omega)]

/-- The last payload ends where the region ends. -/
theorem stringSize_last (hsmall : (Stored.region xs).size < halfLimit) (h : xs[i]? = some x)
    (hlast : i + 1 = xs.length) (cell : Span) :
    stringSize xs.length (Stored.region xs).size i (Stored.distance xs i) cell =
      .ok (x.bytes.size : Int) := by
  have hstep := Stored.distance_succ h
  have hsize := Stored.size_region xs
  rw [hlast] at hstep
  simp only [halfLimit, slotSize] at hsmall hstep hsize
  have hlimit : xs.length * slotSize < signedLimit := by
    simp only [slotSize, signedLimit]
    omega
  have hslots : wordDifference? (Stored.region xs).size (xs.length * slotSize : Nat) =
      some ((Stored.distance xs xs.length + 8 : Nat) : Int) := by
    apply wordDifference?_natCast
    · simp only [slotSize]
      omega
    · simp only [signedLimit]
      omega
  have hlength : wordDifference? ((Stored.distance xs xs.length + 8 : Nat) : Int)
      (Stored.distance xs i) = some (x.bytes.size : Int) := by
    apply wordDifference?_natCast hstep
    simp only [signedLimit]
    omega
  rw [stringSize, if_pos hlast, if_pos hlimit, hslots, Option.bind_some, hlength]
  rfl

/-- Any other payload ends where the one of the next slot begins. -/
theorem stringSize_inner (hsmall : (Stored.region xs).size < halfLimit) (h : xs[i]? = some x)
    (hnext : xs[i + 1]? = some (.payload b)) :
    stringSize xs.length (Stored.region xs).size i (Stored.distance xs i)
      (Stored.slotPlace pre suf xs i) = .ok (x.bytes.size : Int) := by
  have hi := (List.getElem?_eq_some_iff.mp hnext).choose
  have hstep := Stored.distance_succ h
  have hbegin := Stored.distance_le_size xs i
  have hend := Stored.distance_le_size xs (i + 1)
  have hslot : 8 ≤ Stored.distance xs i := by
    rw [Stored.distance]
    simp only [slotSize]
    omega
  have hnumber : (UInt64.ofNat (Stored.distance xs (i + 1))).toInt64.toInt =
      Stored.distance xs (i + 1) := toInt_of_lt_halfLimit (Nat.lt_of_le_of_lt hend hsmall)
  simp only [halfLimit, slotSize] at hsmall hstep
  have hslots : wordDifference? (Stored.distance xs i) (slotSize : Nat) =
      some ((Stored.distance xs i - 8 : Nat) : Int) := by
    apply wordDifference?_natCast
    · simp only [slotSize]
      omega
    · simp only [signedLimit]
      omega
  have hlength : wordDifference? (Stored.distance xs (i + 1))
      ((Stored.distance xs i - 8 : Nat) : Int) = some (x.bytes.size : Int) := by
    apply wordDifference?_natCast
    · omega
    · simp only [signedLimit]
      omega
  rw [stringSize, if_neg (by omega), Stored.wordAt_cell pre suf hnext]
  simp only [Stored.cell, Decoding.access_ok, Decoding.bind_eq, Decoding.ok_bind, hnumber, hslots,
    Option.bind_some, hlength]
  rfl

theorem stringSize_region (hsmall : (Stored.region xs).size < halfLimit)
    (hpayloads : ∀ x ∈ xs, ∃ b, x = .payload b) (h : xs[i]? = some x) :
    stringSize xs.length (Stored.region xs).size i (Stored.distance xs i)
      (Stored.slotPlace pre suf xs i) = .ok (x.bytes.size : Int) := by
  have hi := (List.getElem?_eq_some_iff.mp h).choose
  by_cases hlast : i + 1 = xs.length
  · exact stringSize_last hsmall h hlast _
  · have hnext : xs[i + 1]? = some xs[i + 1] := List.getElem?_eq_getElem (by omega)
    obtain ⟨b, hb⟩ := hpayloads _ (List.mem_of_getElem? hnext)
    rw [hb] at hnext
    exact stringSize_inner pre suf hsmall h hnext

/-- A text of a list is read back from its slot, without its terminator. -/
theorem readListString_region (hsmall : (Stored.region xs).size < halfLimit)
    (hpayloads : ∀ x ∈ xs, ∃ b, x = .payload b) {text : String} {terminator : UInt8}
    (h : xs[i]? = some (.payload (text.toUTF8.push terminator))) :
    readListString xs.length (Stored.region xs).size i
      (Stored.slotPlace pre suf xs i) = .ok (.str text) := by
  have hword : (Stored.slotPlace pre suf xs i).word = _ :=
    Stored.word_cell pre suf h
  have hoffset : (UInt64.ofNat (Stored.distance xs i)).toInt64.toInt = Stored.distance xs i :=
    toInt_of_lt_halfLimit (Nat.lt_of_le_of_lt (Stored.distance_le_size xs i) hsmall)
  have hpush := push_toUTF8 text terminator
  have hsize : (text.toUTF8.push terminator).size = text.utf8ByteSize + 1 := by
    rw [hpush, ByteArray.size_append, String.size_toByteArray]
    rfl
  have hlength := stringSize_region pre suf hsmall hpayloads h
  rw [Stored.bytes, hsize] at hlength
  obtain ⟨front, back, hdata, hfront⟩ := Stored.region_eq_of_payload pre suf h
  have htarget : (Stored.slotPlace pre suf xs i).advanceSigned
      (UInt64.ofNat (Stored.distance xs i)).toInt64 =
        .ok ⟨pre ++ Stored.region xs ++ suf, front.size⟩ := by
    rw [Span.advanceSigned, hoffset, if_neg (by omega), Int.toNat_natCast, Span.advance_eq_ok_iff,
      Stored.slotPlace, hdata]
    refine ⟨?_, by rw [hfront]⟩
    simp only [ByteArray.size_append]
    omega
  have htext : (⟨pre ++ Stored.region xs ++ suf, front.size⟩ : Span).bytes text.utf8ByteSize =
      .ok text.toByteArray := by
    rw [hdata, hpush, ← ByteArray.append_assoc, ByteArray.append_assoc, ← String.size_toByteArray]
    exact Span.bytes_append front text.toByteArray _
  have hnonempty : ¬ ((text.utf8ByteSize + 1 : Nat) : Int) < 1 := by omega
  have hshort : (((text.utf8ByteSize + 1 : Nat) : Int) - 1).toNat = text.utf8ByteSize := by omega
  simp only [readListString, Span.int, hword, Except.map, Stored.cell, Decoding.access_ok,
    Decoding.bind_eq, Decoding.ok_bind, hoffset, hlength, if_neg hnonempty, hshort, htarget, htext,
    decodeText, readText_toByteArray, mapError_ok, Decoding.ofExcept_ok, Decoding.pure_eq]

/-- Slots are read one after the other, each as it is read on its own. -/
theorem readCells_eq_ok {read : Nat → Span → Decoding Value} {data : ByteArray} {items : List Value}
    {position : Nat} (hroom : position + slotSize * items.length ≤ data.size)
    (hread : ∀ j item, items[j]? = some item →
      read (i + j) ⟨data, slotSize * j + position⟩ = .ok item) :
    readCells read items.length i ⟨data, position⟩ = .ok items := by
  induction items generalizing i position with
  | nil => rfl
  | cons item items ih =>
    rw [List.length_cons, Nat.mul_succ] at hroom
    have hfirst : read i ⟨data, position⟩ = .ok item := by
      have hread := hread 0 item rfl
      rw [Nat.mul_zero, Nat.zero_add] at hread
      exact hread
    have hnext : (⟨data, position⟩ : Span).advance slotSize = .ok ⟨data, position + slotSize⟩ := by
      rw [Span.advance_eq_ok_iff]
      simp only [slotSize] at hroom ⊢
      exact ⟨by omega, trivial⟩
    have hrest : readCells read items.length (i + 1) ⟨data, position + slotSize⟩ = .ok items := by
      apply ih (by omega)
      intro j item hitem
      have hread := hread (j + 1) item hitem
      rw [Nat.mul_succ, Nat.add_assoc, Nat.add_comm slotSize] at hread
      rw [Nat.add_assoc, Nat.add_comm 1]
      exact hread
    simp only [readCells, List.length_cons, hfirst, hnext, hrest, Decoding.access_ok, Decoding.bind_eq,
      Decoding.ok_bind, Decoding.pure_eq]

variable {f : Filler} {element : Schema} {items : List Value} {item : Value}

theorem exists_payload_of_str (hitems : ∀ item ∈ items, Conforms False .str item) :
    ∀ x ∈ items.mapIdx f.stored, ∃ b, x = .payload b := by
  intro x hx
  obtain ⟨i, hi, rfl⟩ := List.mem_mapIdx.mp hx
  generalize hitem : items[i] = item
  have hconforms := hitems item (hitem ▸ List.getElem_mem hi)
  cases hconforms with
  | str text => exact ⟨_, rfl⟩

/-- An element of a written list is read back from its slot. -/
theorem readElement_listRegion (hkind : element ∈ [Schema.int, .float, .bool, .str])
    (hitems : ∀ item ∈ items, Conforms False element item)
    (hsmall : (f.listRegion items).size < halfLimit) (h : items[i]? = some item) (depth : Nat) :
    readElement element (d.reader element) items.length (f.listRegion items).size depth i
      (Stored.slotPlace pre suf (items.mapIdx f.stored) i) = .ok item := by
  have hstored : (items.mapIdx f.stored)[i]? = some (f.stored i item) := by simp [h]
  have hword : (Stored.slotPlace pre suf (items.mapIdx f.stored) i).word = _ :=
    Stored.word_cell pre suf hstored
  cases hitems item (List.mem_of_getElem? h) with
  | int n =>
    have hint : (Stored.slotPlace pre suf (items.mapIdx f.stored) i).int =
        .ok n := by
      simp [Span.int, hword, Filler.stored, Stored.cell, Except.map]
    simp [readElement, reader, hint, Decoding.access_ok]
  | float x =>
    have hfloat : (Stored.slotPlace pre suf (items.mapIdx f.stored) i).float =
        .ok x := by
      simp [Span.float, hword, Filler.stored, Stored.cell, Except.map]
    simp [readElement, reader, hfloat, Decoding.access_ok]
  | bool b =>
    have hint : (Stored.slotPlace pre suf (items.mapIdx f.stored) i).int =
        .ok (if b then 1 else 0) := by
      cases b <;> simp [Span.int, hword, Filler.stored, Stored.cell, Except.map]
    cases b <;> simp [readElement, hint, Decoding.access_ok]
  | str text =>
    have htext := readListString_region pre suf hsmall (exists_payload_of_str hitems) hstored
    rw [List.length_mapIdx] at htext
    exact htext
  | _ => simp at hkind

/-- All elements of a written list are read back from its slots. -/
theorem readCells_listRegion (hkind : element ∈ [Schema.int, .float, .bool, .str])
    (hitems : ∀ item ∈ items, Conforms False element item)
    (hsmall : (f.listRegion items).size < halfLimit) (depth : Nat) :
    readCells (readElement element (d.reader element) items.length (f.listRegion items).size depth)
      items.length 0 ⟨pre ++ f.listRegion items ++ suf, pre.size + slotSize⟩ = .ok items := by
  have hsize := Filler.slots_le_listRegion f items
  apply readCells_eq_ok
  · simp only [ByteArray.size_append, slotSize] at hsize ⊢
    omega
  · intro j item hitem
    have hslot : slotSize * j + (pre.size + slotSize) = slotSize * (j + 1) + pre.size := by
      rw [Nat.mul_succ]
      omega
    rw [hslot, Nat.zero_add]
    exact readElement_listRegion pre suf hkind hitems hsmall hitem depth

theorem readCount_listRegion (hsmall : (f.listRegion items).size < halfLimit) :
    readCount ⟨pre ++ f.listRegion items ++ suf, pre.size⟩ = .ok items.length := by
  have hsize := Filler.slots_le_listRegion f items
  have hword : (⟨pre ++ f.listRegion items ++ suf, pre.size⟩ : Span).word = .ok (.ofNat items.length) := by
    rw [← List.length_mapIdx (f := f.stored)]
    exact Stored.word_count pre suf
  have hnumber : (UInt64.ofNat items.length).toInt64.toInt = items.length := by
    apply toInt_of_lt_halfLimit
    simp only [slotSize] at hsize
    omega
  have hpositive : ¬ (items.length : Int) < 0 := by omega
  simp only [readCount, Span.int, hword, Except.map, Decoding.access_ok, Decoding.bind_eq,
    Decoding.ok_bind, hnumber, if_neg hpositive, Int.toNat_natCast, Decoding.pure_eq]

/-- A list of scalars or texts is read back through a descriptor that leads to its region, wherever
that lies and whatever lies around it, and nothing is reported. -/
theorem read_listRegion (d : Decoder) (hdepth : 1 ≤ d.maxDepth)
    (hkind : element ∈ [Schema.int, .float, .bool, .str])
    (hitems : ∀ item ∈ items, Conforms False element item) (f : Filler) {span : Span}
    {descriptor : Descriptor} (hdescriptor : span.descriptor = .ok descriptor)
    (hleads : descriptor.LeadsTo span (f.listRegion items)) (bit : Option NullBit) :
    d.read (.list element) span bit = ⟨.ok (.list items), []⟩ := by
  obtain ⟨pre, suf, htarget⟩ := hleads.target
  have hlength := hleads.1
  have hsmall : (f.listRegion items).size < halfLimit := by
    rw [← hlength]
    exact descriptor.length.toNat_lt
  have hsize := Filler.slots_le_listRegion f items
  simp only [slotSize] at hsize
  have hkinds : element.isZeroWidth = false ∧ isListElement element = true := by
    simp only [List.mem_cons, List.not_mem_nil, or_false] at hkind
    obtain rfl | rfl | rfl | rfl := hkind <;> exact ⟨rfl, rfl⟩
  have hroom : items.length * slotSize ≤
      (⟨pre ++ f.listRegion items ++ suf, pre.size⟩ : Span).remaining - slotSize := by
    simp only [Span.remaining, ByteArray.size_append, slotSize]
    omega
  have hfirst : (⟨pre ++ f.listRegion items ++ suf, pre.size⟩ : Span).advance slotSize =
      .ok ⟨pre ++ f.listRegion items ++ suf, pre.size + slotSize⟩ := by
    rw [Span.advance_eq_ok_iff]
    simp only [ByteArray.size_append, slotSize]
    exact ⟨by omega, trivial⟩
  have hopen : d.checkDepth 0 span = .ok () := checkDepth_eq_ok hdepth span
  simp only [read, reader, readList, readSlotList, hopen, hkinds.1, hkinds.2, hdescriptor, htarget,
    hlength, readCount_listRegion pre suf hsmall, if_pos hroom, hfirst,
    readCells_listRegion pre suf hkind hitems hsmall 0, Decoding.access_ok, Decoding.ofExcept_ok,
    Decoding.bind_eq, Decoding.ok_bind, Decoding.pure_eq, if_true]
  rfl

/-- Terminators that count the texts. -/
def countingFiller : Filler := ⟨fun _ => false, fun _ => 0, UInt8.ofNat⟩

/-- A list of three texts, two bytes behind its descriptor and one in front of the end. -/
def threeTexts : ByteArray :=
  ⟨#[1, 2, 3, 10, 0, 0, 0, 39, 0, 0, 0, 9, 9,
    3, 0, 0, 0, 0, 0, 0, 0,
    24, 0, 0, 0, 0, 0, 0, 0, 19, 0, 0, 0, 0, 0, 0, 0, 12, 0, 0, 0, 0, 0, 0, 0,
    97, 98, 0, 1, 195, 169, 2, 5]⟩

theorem read_listRegion_threeTexts :
    standard.read (.list .str) ⟨threeTexts, 3⟩ none =
      ⟨.ok (.list [.str "ab", .str "", .str "é"]), []⟩ := by
  have hitems : ∀ item ∈ [Value.str "ab", .str "", .str "é"], Conforms False .str item := by
    simp only [List.mem_cons, List.not_mem_nil, or_false]
    rintro item (rfl | rfl | rfl) <;> exact .str _
  have hdescriptor : (⟨threeTexts, 3⟩ : Span).descriptor = .ok ⟨10, 39⟩ := by rfl
  have hregion : countingFiller.listRegion [.str "ab", .str "", .str "é"] =
      threeTexts.extract 13 52 := by cbv
  have hleads : Descriptor.LeadsTo ⟨10, 39⟩ ⟨threeTexts, 3⟩
      (countingFiller.listRegion [.str "ab", .str "", .str "é"]) := by
    rw [hregion]
    exact ⟨by rfl, threeTexts.extract 0 13, ⟨#[5]⟩, by rfl, by rfl⟩
  exact read_listRegion standard (by decide) (by simp) hitems countingFiller hdescriptor hleads none

end Decoder

end RowFormat
