import RowFormat.Proofs.DictKeys
import RowFormat.Proofs.Outcomes
import RowFormat.Proofs.PlainRecursion
import Mathlib.Data.List.Forall2

namespace RowFormat

theorem Span.size_of_advance {s t : Span} {offset : Nat} (h : s.advance offset = .ok t) :
    t.data.size = s.data.size := by
  rw [(advance_eq_ok_iff.mp h).2]

/-- The null bit that comes with a value can be looked up, if there is one. -/
def Answers (bit : Option NullBit) : Prop := ∀ b ∈ bit, ∃ null, b.isNull = .ok null

theorem answers_none : Answers none := by
  intro bit hbit
  cases hbit

section

variable {fields : List Schema} {front back : List Leaf} {leaf : Leaf}

/-- The bit of a nullable leaf is one of those that its row counts. -/
theorem Place.bit_behind_lt (horder : Schema.leavesFrom fields [] 0 = front ++ leaf :: back)
    (h : leaf.schema.isOption) :
    (behind front).bit < bitmapWordBits * (Schema.tuple fields).bitmapWords := by
  have hcount : (Schema.tuple fields).optionCount = _ := Schema.optionCounts_eq_countP fields [] 0
  rw [horder, List.countP_append, List.countP_cons, if_pos h] at hcount
  simp only [behind, Schema.bitmapWords, bitmapWordBits]
  omega

theorem NullBitmap.exists_isNull_behind {row : Span} {bitmap : NullBitmap}
    (haccepted : ofSpan row (Schema.tuple fields).bitmapWords = .ok bitmap)
    (horder : Schema.leavesFrom fields [] 0 = front ++ leaf :: back) (h : leaf.schema.isOption) :
    ∃ null, bitmap.isNull (Place.behind front).bit = .ok null := by
  obtain ⟨hroom, rfl⟩ := ofSpan_eq_ok_iff.mp haccepted
  have hbit := Place.bit_behind_lt horder h
  refine exists_isNull ?_ (Nat.mul_comm .. ▸ hbit)
  simp only [Span.remaining, bitmapWordSize, slotSize, bitmapWordBits] at hroom hbit ⊢
  omega

end

namespace Value

/-- Values without items: scalars, blobs, dicts of scalars and nulls, and empty containers. -/
def IsFlat : Value → Prop
  | .tuple items | .list items => items = []
  | .dict entries => ∀ e ∈ entries, e.1.IsHalf True ∧ e.2.IsHalf True
  | _ => True

/-- The values without items that a schema has. -/
inductive IsBare (lossy : Prop) : Schema → Value → Prop
  | bool (b : Bool) : IsBare lossy .bool (.bool b)
  | int (n : Int64) : IsBare lossy .int (.int n)
  | float (x : Binary64) : IsBare lossy .float (.float x)
  | str (text : String) : IsBare lossy .str (.str text)
  | null : IsBare lossy .null .null
  | emptyTuple : IsBare lossy .emptyTuple (.tuple [])
  | emptyList : IsBare lossy .emptyList (.list [])
  | emptyDict : IsBare lossy .emptyDict (.dict [])
  | noFields : IsBare lossy (.tuple []) (.tuple [])
  | dict {entries : List (Value × Value)}
      (halves : ∀ e ∈ entries, e.1.IsHalf lossy ∧ e.2.IsHalf lossy)
      (keys : entries.Pairwise fun e f => (e.1 == f.1) = false ∧ (f.1 == e.1) = false) :
      IsBare lossy .dict (.dict entries)
  | none (inner : Schema) : IsBare lossy (.option inner) .null

theorem IsBare.isFlat {lossy : Prop} {schema : Schema} {value : Value} (h : IsBare lossy schema value) :
    value.IsFlat := by
  cases h with
  | dict halves keys => exact fun e he => ⟨(halves e he).1.of_lossy, (halves e he).2.of_lossy⟩
  | emptyDict => exact List.forall_mem_nil _
  | emptyTuple | emptyList | noFields => rfl
  | _ => trivial

end Value

namespace Decoder

open Decoding (Regular)

/-- The number of elements that a list can have. Stored elements and their count take a slot each. -/
def Allows (d : Decoder) (size : Nat) (element : Schema) (count : Nat) : Prop :=
  if element.isZeroWidth then count ≤ d.maxZeroWidthLength
  else count = 0 ∨ slotSize * (count + 1) ≤ size

/-- A predicate on values, inside a number of containers, that holds of a value if it holds of its
parts. The buffer has the given size, and nulls may have taken the place of what was lost. -/
structure Keeps (d : Decoder) (size : Nat) (lossy : Prop) (Q : Nat → Schema → Value → Prop) : Prop where
  bare {depth : Nat} {schema : Schema} {value : Value} (h : value.IsBare lossy schema) :
    Q depth schema value
  blob {depth : Nat} {payload : ByteArray} {value : Value} (h : d.readBlob payload = .ok value) :
    Q depth .blob value
  tuple {depth : Nat} {fields : List Schema} {items : List Value} (hdepth : depth < d.maxDepth)
    (h : List.Forall₂ (Q (depth + 1)) fields items) : Q depth (.tuple fields) (.tuple items)
  list {depth : Nat} {element : Schema} {items : List Value} (hdepth : depth < d.maxDepth)
    (hcount : d.Allows size element items.length) (h : ∀ item ∈ items, Q (depth + 1) element item) :
    Q depth (.list element) (.list items)
  lostList {depth : Nat} {element : Schema} {count : Nat} (hdepth : depth < d.maxDepth) (hlossy : lossy)
    (hstored : isListElement element = false) (hwidth : element.isZeroWidth = false)
    (hcount : d.Allows size element count) :
    Q depth (.list element) (.list (List.replicate count .null))
  some {depth : Nat} {inner : Schema} {value : Value} (h : Q depth inner value) :
    Q depth (.option inner) value

variable {d : Decoder} {size : Nat} {lossy : Prop} {Q : Nat → Schema → Value → Prop}

/-- What is read in a buffer of the given size, inside a number of containers, satisfies a
predicate. The faults are regular, unless the null bit is one that cannot be looked up. -/
def Keeping (size : Nat) (lossy : Prop) (P : Nat → Value → Prop) (read : Reader) : Prop :=
  ∀ span bit depth, span.data.size = size →
    (read span bit depth).Ends lossy (fun e => Answers bit → e.IsRegular) (P depth)

theorem Keeping.of_regular {P : Nat → Value → Prop} {read : Reader}
    (h : ∀ span bit depth, span.data.size = size → Regular lossy (P depth) (read span bit depth)) :
    Keeping size lossy P read :=
  fun span bit depth hsize => (h span bit depth hsize).given _

theorem Keeping.regular {P : Nat → Value → Prop} {read : Reader} (h : Keeping size lossy P read)
    {span : Span} (hsize : span.data.size = size) {bit : Option NullBit} (hbit : Answers bit)
    (depth : Nat) : Regular lossy (P depth) (read span bit depth) :=
  (h span bit depth hsize).imp (fun _ he => he hbit) fun _ hvalue => hvalue

theorem checkDepth_regular (d : Decoder) (depth : Nat) (span : Span) :
    Regular lossy (fun _ => depth < d.maxDepth) (.ofExcept (d.checkDepth depth span)) :=
  d.checkDepth_ends depth span ⟨rfl, rfl⟩

theorem readCount_regular (span : Span) : Regular lossy (fun _ => True) (readCount span) := by
  refine .bind_read (Span.locates_int span) fun count _ => ?_
  split
  next => exact .of_fail ⟨rfl, rfl⟩
  next => exact .ok trivial

theorem decodeText_regular (bytes : ByteArray) (position : Nat) :
    Regular lossy (fun _ => True) (decodeText bytes position) :=
  decodeText_ends bytes position fun _ => ⟨rfl, rfl⟩

theorem readStr_regular (h : d.Keeps size lossy Q) (span : Span) (depth : Nat) :
    Regular lossy (Q depth .str) (readStr span) := by
  refine .bind_read (Span.locates_descriptor span) fun descriptor _ => ?_
  refine .bind_read (Span.locates_advance span _) fun target _ => ?_
  refine .bind_read (Span.locates_bytes target _) fun bytes _ => ?_
  refine (decodeText_regular bytes target.position).bind fun text _ => ?_
  exact .ok (h.bare (.str text))

theorem readBlobAt_regular (h : d.Keeps size lossy Q) (span : Span) (depth : Nat) :
    Regular lossy (Q depth .blob) (d.readBlobAt span) := by
  refine .bind_read (Span.locates_descriptor span) fun descriptor _ => ?_
  refine .bind_read (Span.locates_payload descriptor span) fun payload _ => ?_
  cases hblob : d.readBlob payload with
  | error e => exact .of_fail ⟨rfl, rfl⟩
  | ok value => exact .ok (h.blob hblob)

theorem readDict_regular (h : d.Keeps size lossy Q) (span : Span) (depth : Nat) :
    Regular lossy (Q depth .dict) (d.readDict span) := by
  refine .bind_read (Span.locates_descriptor span) fun descriptor _ => ?_
  refine .bind_read (Span.locates_payload descriptor span) fun payload _ => ?_
  split
  next => exact .of_fail ⟨rfl, rfl⟩
  next root _ =>
    split
    next => exact .of_fail ⟨rfl, rfl⟩
    next members _ =>
      intro hlossy
      obtain ⟨halves, keys⟩ := Dict.readEntries_sound hlossy
      exact h.bare (.dict halves keys)

theorem stringSize_regular (count regionLength i : Nat) (offset : Int) (cell : Span) :
    Regular lossy (fun _ => True) (stringSize count regionLength i offset cell) := by
  unfold stringSize
  split
  next =>
    split
    next =>
      refine Decoding.Ends.bind (Q := fun _ => True) (.ok trivial) fun size? _ => ?_
      cases size? with
      | none => exact .of_fail ⟨rfl, rfl⟩
      | some size => exact .ok trivial
    next => exact .of_fail ⟨rfl, rfl⟩
  next =>
    refine .bind_read (Span.locates_wordAt cell slotSize) fun next _ => ?_
    refine Decoding.Ends.bind (Q := fun _ => True) (.ok trivial) fun size? _ => ?_
    cases size? with
    | none => exact .of_fail ⟨rfl, rfl⟩
    | some size => exact .ok trivial

theorem readListString_regular (h : d.Keeps size lossy Q) (count regionLength i : Nat) (cell : Span)
    (depth : Nat) : Regular lossy (Q depth .str) (readListString count regionLength i cell) := by
  refine .bind_read (Span.locates_int cell) fun offset _ => ?_
  refine (stringSize_regular count regionLength i offset.toInt cell).bind fun length _ => ?_
  split
  next => exact .of_fail ⟨rfl, rfl⟩
  next =>
    refine .bind_read (Span.locates_advanceSigned cell offset) fun target _ => ?_
    refine .bind_read (Span.locates_bytes target _) fun bytes _ => ?_
    refine (decodeText_regular bytes target.position).bind fun text _ => ?_
    exact .ok (h.bare (.str text))

/-- The bit is the one that comes with the value, or the only one of a bitmap that the value brings. -/
theorem readOption_regular {inner : Schema} {read : Reader} (h : d.Keeps size lossy Q)
    (hread : Keeping size lossy (Q · inner) read) :
    Keeping size lossy (Q · (.option inner)) (readOption read) := by
  have hnullable (null : Bool) (payload : Span) (depth : Nat) (hsize : payload.data.size = size) :
      Regular lossy (Q depth (.option inner))
        (if null then .ok .null else read payload none depth) := by
    split
    next => exact .ok (h.bare (.none inner))
    next =>
      have hvalue := hread.regular hsize answers_none depth
      exact hvalue.imp (fun _ he => he) fun value hvalue => h.some hvalue
  intro span bit depth hsize
  cases bit with
  | none =>
    rw [readOption_none]
    refine .given (.bind_read (NullBitmap.locates_embedded span) fun r hr => ?_) _
    obtain ⟨hroom, rfl⟩ := NullBitmap.embedded_eq_ok_iff.mp hr
    obtain ⟨null, hnull⟩ := NullBitmap.exists_isNull (b := ⟨span, 1⟩) (i := 0)
      (by rw [Nat.one_mul]; exact hroom) (show 0 < 1 * bitmapWordBits by decide)
    exact .bind_access hnull (hnullable null _ depth hsize)
  | some bit =>
    rw [readOption_some]
    cases hnull : bit.isNull with
    | error e =>
      refine .of_fail fun hbit => ?_
      obtain ⟨null, hanswer⟩ := hbit bit rfl
      rw [hnull] at hanswer
      cases hanswer
    | ok null => exact .given (.bind_access rfl (hnullable null span depth hsize)) _

theorem readElement_regular {element : Schema} {read : Reader} (h : d.Keeps size lossy Q)
    (hread : Keeping size lossy (Q · element) read) (count regionLength depth i : Nat) (cell : Span)
    (hsize : cell.data.size = size) :
    Regular lossy (Q (depth + 1) element) (readElement element read count regionLength depth i cell) := by
  unfold readElement
  split
  next => exact .bind_read (Span.locates_int cell) fun word _ => .ok (h.bare (.bool _))
  next => exact readListString_regular h count regionLength i cell (depth + 1)
  next => exact hread.regular hsize answers_none (depth + 1)

theorem readCells_regular {P : Value → Prop} {read : Nat → Span → Decoding Value}
    (h : ∀ i cell, cell.data.size = size → Regular lossy P (read i cell)) (n i : Nat) (cell : Span)
    (hsize : cell.data.size = size) :
    Regular lossy (fun items => items.length = n ∧ ∀ item ∈ items, P item) (readCells read n i cell) := by
  induction n generalizing i cell with
  | zero => exact .ok ⟨rfl, List.forall_mem_nil P⟩
  | succ n ih =>
    refine (h i cell hsize).bind fun item hitem => ?_
    refine .bind_read (Span.locates_advance cell slotSize) fun next hnext => ?_
    have hrest := ih (i + 1) next ((Span.size_of_advance hnext).trans hsize)
    refine hrest.bind fun items hitems => ?_
    obtain ⟨hlength, hall⟩ := hitems
    exact .ok ⟨by rw [List.length_cons, hlength], List.forall_mem_cons.mpr ⟨hitem, hall⟩⟩

theorem readZeroWidthList_regular {element : Schema} {read : Reader} (h : d.Keeps size lossy Q)
    (hread : Keeping size lossy (Q · element) read) (hwidth : element.isZeroWidth) (span : Span)
    (depth : Nat) (hdepth : depth < d.maxDepth) (hsize : span.data.size = size) :
    Regular lossy (Q depth (.list element)) (d.readZeroWidthList read span depth) := by
  refine (readCount_regular span).bind fun count _ => ?_
  split
  next hcount =>
    refine (hread.regular hsize answers_none (depth + 1)).bind fun item hitem => .ok ?_
    apply h.list hdepth
    · rw [Allows, if_pos hwidth, List.length_replicate]
      exact hcount
    · intro v hv
      rw [List.eq_of_mem_replicate hv]
      exact hitem
  next => exact .of_fail ⟨rfl, rfl⟩

theorem readSlotList_regular {element : Schema} {read : Reader} (h : d.Keeps size lossy Q)
    (hread : Keeping size lossy (Q · element) read) (hwidth : ¬element.isZeroWidth) (span : Span)
    (depth : Nat) (hdepth : depth < d.maxDepth) (hsize : span.data.size = size) :
    Regular lossy (Q depth (.list element)) (readSlotList element read span depth) := by
  refine .bind_read (Span.locates_descriptor span) fun descriptor _ => ?_
  refine .bind_read (Span.locates_advance span _) fun region hregion => ?_
  have hregion : region.data.size = size := (Span.size_of_advance hregion).trans hsize
  refine (readCount_regular region).bind fun count _ => ?_
  split
  next hroom =>
    have hallows : d.Allows size element count := by
      rw [Span.remaining, hregion] at hroom
      rw [Allows, if_neg hwidth]
      simp only [slotSize] at hroom ⊢
      omega
    split
    next =>
      refine .bind_read (Span.locates_advance region slotSize) fun first hfirst => ?_
      have hfirst : first.data.size = size := (Span.size_of_advance hfirst).trans hregion
      have helement := readElement_regular h hread count descriptor.length.toNat depth
      refine (readCells_regular helement count 0 first hfirst).bind fun items hitems => .ok ?_
      obtain ⟨hlength, hall⟩ := hitems
      exact h.list hdepth (hlength ▸ hallows) hall
    next hstored =>
      -- The elements are lost, and as many nulls stand in their place.
      intro hlossy
      have hlost : lossy := hlossy (List.cons_ne_nil _ _)
      exact h.lostList hdepth hlost (by simpa using hstored) (by simpa using hwidth) hallows
  next =>
    split
    next => exact .of_fail ⟨rfl, rfl⟩
    next => exact .of_fail ⟨rfl, rfl⟩

theorem readList_regular {element : Schema} {read : Reader} (h : d.Keeps size lossy Q)
    (hread : Keeping size lossy (Q · element) read) (span : Span) (depth : Nat)
    (hsize : span.data.size = size) :
    Regular lossy (Q depth (.list element)) (d.readList element read span depth) := by
  refine (checkDepth_regular d depth span).bind fun _ hdepth => ?_
  split
  next hwidth => exact readZeroWidthList_regular h hread hwidth span depth hdepth hsize
  next hwidth => exact readSlotList_regular h hread hwidth span depth hdepth hsize

theorem readLeafBehind_regular {schema : Schema} (hread : Keeping size lossy (Q · schema) (d.reader schema))
    (row : OpenRow) (hsize : row.fixed.data.size = size) (before : List Leaf) (path : Path)
    (hbit : schema.isOption → ∃ null, row.bitmap.isNull (Place.behind before).bit = .ok null) :
    Regular lossy (Q (row.depth + path.length) schema) (d.readLeafBehind row before schema path) := by
  have hanswers : Answers
      (if schema.isOption then some ⟨row.bitmap, (Place.behind before).bit⟩ else none) := by
    split
    next hoption =>
      rintro _ ⟨⟩
      exact hbit hoption
    next => exact answers_none
  refine .bind_read (Span.locates_advance row.fixed _) fun slot hslot => ?_
  have hvalue := hread.regular ((Span.size_of_advance hslot).trans hsize) hanswers
    (row.depth + path.length)
  exact hvalue.within fun e he => he.field path schema slot.position

mutual

theorem readFieldBehind_regular (h : d.Keeps size lossy Q) (row : OpenRow) (before : List Leaf)
    (field : Schema) (path : Path)
    (hleaves : ∀ front leaf back, field.leavesAt path = front ++ leaf :: back →
      Regular lossy (Q (row.depth + leaf.path.length) leaf.schema)
        (d.readLeafBehind row (before ++ front) leaf.schema leaf.path)) :
    Regular lossy (Q (row.depth + path.length) field) (d.readFieldBehind row before field path) := by
  by_cases htuple : field.isTuple
  · match field, htuple with
    | .tuple (first :: fields), _ =>
      rw [readFieldBehind]
      refine (checkDepth_regular d _ row.start).bind fun _ hdepth => ?_
      refine (readFieldsBehind_regular h row before (first :: fields) path 0 hleaves).bind ?_
      exact fun items hitems => .ok (h.tuple hdepth hitems)
  · have hleaf : field.isTuple = false := by simpa using htuple
    have hread := hleaves [] ⟨path, field⟩ [] (Schema.leavesAt_of_not_isTuple hleaf path)
    rw [List.append_nil] at hread
    rw [readFieldBehind_of_not_isTuple hleaf]
    exact hread
termination_by sizeOf field

theorem readFieldsBehind_regular (h : d.Keeps size lossy Q) (row : OpenRow) (before : List Leaf)
    (fields : List Schema) (path : Path) (i : Nat)
    (hleaves : ∀ front leaf back, Schema.leavesFrom fields path i = front ++ leaf :: back →
      Regular lossy (Q (row.depth + leaf.path.length) leaf.schema)
        (d.readLeafBehind row (before ++ front) leaf.schema leaf.path)) :
    Regular lossy (List.Forall₂ (Q (row.depth + path.length + 1)) fields)
      (d.readFieldsBehind row before fields path i) := by
  match fields with
  | [] => exact .ok .nil
  | field :: fields =>
    rw [Schema.leavesFrom] at hleaves
    rw [readFieldsBehind]
    have hfirst := readFieldBehind_regular h row before field (path ++ [i])
      fun front leaf back hsplit =>
        hleaves front leaf (back ++ _) (by rw [hsplit, List.append_assoc, List.cons_append])
    rw [List.length_append, List.length_singleton, ← Nat.add_assoc] at hfirst
    refine hfirst.bind fun item hitem => ?_
    have hrest := readFieldsBehind_regular h row (before ++ field.leavesAt (path ++ [i])) fields path
      (i + 1) fun front leaf back hsplit => by
        rw [List.append_assoc]
        exact hleaves _ leaf back (by rw [hsplit, List.append_assoc])
    exact hrest.bind fun items hitems => .ok (.cons hitem hitems)
termination_by sizeOf fields

end

theorem readNested_regular (h : d.Keeps size lossy Q) (field : Schema) (fields : List Schema)
    (hleaves : ∀ leaf ∈ Schema.leavesFrom (field :: fields) [] 0,
      Keeping size lossy (Q · leaf.schema) (d.reader leaf.schema)) (span : Span) (depth : Nat)
    (hsize : span.data.size = size) :
    Regular lossy (Q depth (.tuple (field :: fields)))
      (d.readNested (.tuple (field :: fields)) span depth) := by
  refine (checkDepth_regular d depth span).bind fun _ hdepth => ?_
  refine .bind_read (NullBitmap.locates_ofSpan span _) fun bitmap hbitmap => ?_
  refine .bind_read (Span.locates_advance span _) fun fixed hfixed => ?_
  have hfixed : fixed.data.size = size := (Span.size_of_advance hfixed).trans hsize
  have hfields := readFieldsBehind_regular h ⟨span, bitmap, fixed, depth⟩ [] (field :: fields) [] 0
    fun front leaf back horder => by
      have hleaf := hleaves leaf (horder ▸ List.mem_append_right _ List.mem_cons_self)
      exact readLeafBehind_regular hleaf _ hfixed front leaf.path
        (NullBitmap.exists_isNull_behind hbitmap horder)
  exact hfields.bind fun items hitems => .ok (h.tuple hdepth hitems)

/-- What a decoder keeps holds of every value that it returns. None of its faults is internal, and
none is a lookup of a null bit that the row itself hands out. -/
theorem reader_regular (h : d.Keeps size lossy Q) (schema : Schema) :
    Keeping size lossy (Q · schema) (d.reader schema) := by
  induction schema using Schema.rowInduction with
  | bool =>
    refine .of_regular fun span _ _ _ => ?_
    exact .bind_read (Span.locates_byte span) fun _ _ => .ok (h.bare (.bool _))
  | int =>
    refine .of_regular fun span _ _ _ => ?_
    exact .bind_read (Span.locates_int span) fun n _ => .ok (h.bare (.int n))
  | float =>
    refine .of_regular fun span _ _ _ => ?_
    exact .bind_read (Span.locates_float span) fun x _ => .ok (h.bare (.float x))
  | str => exact .of_regular fun span _ depth _ => readStr_regular h span depth
  | blob => exact .of_regular fun span _ depth _ => readBlobAt_regular h span depth
  | null => exact .of_regular fun _ _ _ _ => .ok (h.bare .null)
  | emptyTuple => exact .of_regular fun _ _ _ _ => .ok (h.bare .emptyTuple)
  | emptyList => exact .of_regular fun _ _ _ _ => .ok (h.bare .emptyList)
  | emptyDict => exact .of_regular fun _ _ _ _ => .ok (h.bare .emptyDict)
  | noFields => exact .of_regular fun _ _ _ _ => .ok (h.bare .noFields)
  | tuple field fields ih =>
    refine .of_regular fun span bit depth hsize => ?_
    rw [reader_eq_readNested]
    exact readNested_regular h field fields ih span depth hsize
  | list element ih =>
    refine .of_regular fun span bit depth hsize => ?_
    rw [reader]
    exact readList_regular h ih span depth hsize
  | dict => exact .of_regular fun span _ depth _ => readDict_regular h span depth
  | option inner ih =>
    rw [reader]
    exact readOption_regular h ih

theorem keeps_true (d : Decoder) (size : Nat) : d.Keeps size True fun _ _ _ => True where
  bare _ := trivial
  blob _ := trivial
  tuple _ _ := trivial
  list _ _ _ := trivial
  lostList _ _ _ _ _ := trivial
  some _ := trivial

/-- The stack of open tuples reads what plain recursion over the fields reads, with the same
diagnostics and the same faults. None of these is a fault of the stack itself. -/
theorem readTuple_refines_recursion (d : Decoder) (field : Schema) (fields : List Schema) (span : Span)
    (depth : Nat) :
    d.readTuple (.tuple (field :: fields)) (leafReaders d (field :: fields) [] 0) span depth =
        d.readNested (.tuple (field :: fields)) span depth ∧
      ∀ fault ds, d.readTuple (.tuple (field :: fields)) (leafReaders d (field :: fields) [] 0) span
        depth = ⟨.error fault, ds⟩ → fault.isInternal = false := by
  constructor
  · rw [readTuple_eq_readRecord, readRecord_eq_readNested]
  · intro fault ds hfault
    have hregular := reader_regular (d.keeps_true span.data.size) (.tuple (field :: fields)) span none
      depth rfl
    rw [reader] at hregular
    exact (hregular.fault hfault (fun _ => trivial) answers_none).notInternal

/-- A row of a number and a tuple that ends in another number, without the last bytes of that one. -/
def rowCutOff : ByteArray :=
  ⟨#[2, 0, 0, 0, 0, 0, 0, 0, 7, 0, 0, 0, 0, 0, 0, 0, 1, 0, 0, 0, 0, 0, 0, 0, 200, 0, 0, 0]⟩

/-- The fault of its last field. -/
def cutOffFault : Fault := .field [1, 1] .int 24 (.bounds (.readPastEnd 8 24 28))

theorem readTuple_refines_recursion_cutOff :
    standard.readTuple (.tuple [.int, .tuple [.tuple [.option .null, .option .bool], .int]])
        (leafReaders standard [.int, .tuple [.tuple [.option .null, .option .bool], .int]] [] 0)
        (Span.ofBytes rowCutOff) 0 = ⟨.error cutOffFault, []⟩ ∧
      standard.readNested (.tuple [.int, .tuple [.tuple [.option .null, .option .bool], .int]])
        (Span.ofBytes rowCutOff) 0 = ⟨.error cutOffFault, []⟩ ∧
      cutOffFault.isInternal = false := by
  have hread : standard.readTuple (.tuple [.int, .tuple [.tuple [.option .null, .option .bool], .int]])
      (leafReaders standard [.int, .tuple [.tuple [.option .null, .option .bool], .int]] [] 0)
      (Span.ofBytes rowCutOff) 0 = ⟨.error cutOffFault, []⟩ := by rfl
  obtain ⟨hsame, hfault⟩ := readTuple_refines_recursion standard .int
    [.tuple [.tuple [.option .null, .option .bool], .int]] (Span.ofBytes rowCutOff) 0
  exact ⟨hread, hsame.symm.trans hread, hfault cutOffFault [] hread⟩

end Decoder

end RowFormat
