import RowFormat.Proofs.Bytes
import RowFormat.Proofs.NullLeaves
import Mathlib

namespace RowFormat

/-- Follows a path inwards through tuples. -/
def Value.fieldAt? : Value → Path → Option Value
  | value, [] => some value
  | .tuple items, i :: path =>
    match items[i]? with
    | some item => item.fieldAt? path
    | none => none
  | _, _ :: _ => none

theorem exists_of_append_eq_append_cons {α : Type} {as bs front back : List α} {a : α}
    (h : as ++ bs = front ++ a :: back) :
    (∃ tail, as = front ++ a :: tail) ∨ ∃ more, front = as ++ more ∧ bs = more ++ a :: back := by
  rcases List.append_eq_append_iff.mp h with ⟨more, hfront, hbs⟩ | ⟨tail, has, htail⟩
  · exact .inr ⟨more, hfront, hbs⟩
  · cases tail with
    | nil => exact .inr ⟨[], by simpa using has.symm, htail.symm⟩
    | cons b tail =>
      obtain ⟨rfl, _⟩ := List.cons.inj htail
      exact .inl ⟨tail, has⟩

theorem singleton_eq_append_cons {α : Type} {front back : List α} {a b : α}
    (h : [a] = front ++ b :: back) : front = [] ∧ b = a ∧ back = [] := by
  cases front with
  | nil =>
    obtain ⟨rfl, rfl⟩ := List.cons.inj h
    exact ⟨rfl, rfl, rfl⟩
  | cons first front => simp at h

namespace Schema

mutual

/-- The number of slots that a field of a row takes. -/
def slotCount : Schema → Nat
  | .tuple (field :: fields) => slotCounts (field :: fields)
  | s => if s.withoutOption.isZeroWidth then 0 else 1

def slotCounts : List Schema → Nat
  | [] => 0
  | field :: fields => field.slotCount + slotCounts fields

end

mutual

/-- The number of bytes that are looked at when a field of fixed size is read, from its first slot on. -/
def fieldExtent : Schema → Nat
  | .tuple (field :: fields) => fieldsExtent (field :: fields)
  | .option inner => inner.bitmapBytes + inner.fieldExtent
  | s => if s.isZeroWidth then 0 else slotSize

def fieldsExtent : List Schema → Nat
  | [] => 0
  | field :: fields => max field.fieldExtent (slotSize * field.slotCount + fieldsExtent fields)

end

/-- The number of bytes that are looked at when a value of fixed size is read that is no field. -/
def extent (s : Schema) : Nat := s.bitmapBytes + s.fieldExtent

mutual

theorem slotCount_eq_countP (s : Schema) (path : Path) :
    s.slotCount = (s.leavesAt path).countP fun leaf => !leaf.schema.withoutOption.isZeroWidth := by
  match s with
  | .tuple (field :: fields) => exact slotCounts_eq_countP (field :: fields) path 0
  | .option inner =>
    have hone : (option inner).slotCount = if inner.isZeroWidth then 0 else 1 := rfl
    rw [hone, leavesAt_of_not_isTuple rfl, List.countP_singleton, withoutOption]
    cases inner.isZeroWidth with
    | true => rfl
    | false => rfl
  | .tuple [] | .bool | .int | .float | .str | .blob | .null | .emptyTuple | .emptyList
  | .emptyDict | .list _ | .dict => rfl

theorem slotCounts_eq_countP (fields : List Schema) (path : Path) (i : Nat) :
    slotCounts fields =
      (leavesFrom fields path i).countP fun leaf => !leaf.schema.withoutOption.isZeroWidth := by
  match fields with
  | [] => rfl
  | field :: fields =>
    rw [slotCounts, leavesFrom, List.countP_append, slotCount_eq_countP field (path ++ [i]),
      slotCounts_eq_countP fields path (i + 1)]

end

theorem extent_eq_fieldExtent {s : Schema} (htuple : s.isTuple = false) (hoption : s.isOption = false) :
    s.extent = s.fieldExtent := by
  have hbits : s.optionCount = 0 := by
    cases s with
    | tuple fields =>
      cases fields with
      | nil => rfl
      | cons field fields => cases htuple
    | option inner => cases hoption
    | _ => rfl
  rw [extent, bitmapBytes, bitmapWords, hbits]
  exact Nat.zero_add _

/-- What is no row takes its slot, if it has a width. -/
theorem extent_of_isCell {s : Schema} (h : s.isCell) :
    s.extent = if s.isZeroWidth then 0 else slotSize := by
  simp only [isCell, Bool.and_eq_true, Bool.not_eq_true'] at h
  rw [extent_eq_fieldExtent h.1.2 h.2]
  cases s with
  | tuple fields =>
    cases fields with
    | nil => rfl
    | cons field fields => cases h.1.2
  | option inner => cases h.2
  | _ => rfl

theorem extent_withoutOption {s : Schema} (h : s.isTuple = false) :
    s.withoutOption.extent = s.fieldExtent := by
  cases s with
  | option inner => rfl
  | tuple fields => exact extent_eq_fieldExtent h rfl
  | _ => exact extent_eq_fieldExtent rfl rfl

theorem isFixedSize_withoutOption (s : Schema) : s.withoutOption.isFixedSize = s.isFixedSize := by
  cases s with
  | _ => rfl

mutual

/-- Reading a leaf of a field stays inside the extent of the field. -/
theorem extent_le_fieldExtent {s : Schema} {path : Path} {front back : List Leaf} {leaf : Leaf}
    (h : s.leavesAt path = front ++ leaf :: back) :
    (Place.behind front).offset + leaf.schema.withoutOption.extent ≤ s.fieldExtent := by
  by_cases htuple : s.isTuple
  · match s, htuple with
    | .tuple (field :: fields), _ => exact extent_le_fieldsExtent h
  · have hleaf : s.isTuple = false := by simpa using htuple
    rw [leavesAt_of_not_isTuple hleaf] at h
    obtain ⟨rfl, rfl, _⟩ := singleton_eq_append_cons h
    rw [extent_withoutOption hleaf, Place.behind]
    exact Nat.le_of_eq (Nat.zero_add _)
termination_by sizeOf s

theorem extent_le_fieldsExtent {fields : List Schema} {path : Path} {i : Nat} {front back : List Leaf}
    {leaf : Leaf} (h : leavesFrom fields path i = front ++ leaf :: back) :
    (Place.behind front).offset + leaf.schema.withoutOption.extent ≤ fieldsExtent fields := by
  match fields with
  | [] => simp [leavesFrom] at h
  | field :: fields =>
    -- The leaf belongs to the first field, or it lies behind all slots of that.
    rw [fieldsExtent]
    rcases exists_of_append_eq_append_cons h with ⟨tail, hfield⟩ | ⟨more, rfl, hmore⟩
    · have hle := extent_le_fieldExtent hfield
      omega
    · have hle := extent_le_fieldsExtent hmore
      have hoffset : (Place.behind (field.leavesAt (path ++ [i]) ++ more)).offset =
          slotSize * field.slotCount + (Place.behind more).offset := by
        simp only [Place.behind, List.countP_append, ← slotCount_eq_countP, Nat.mul_add]
      omega
termination_by sizeOf fields

end

end Schema

/-- A bitmap fits in both buffers or in neither. -/
theorem NullBitmap.ofSpan_cases {n : Nat} {s t : Span} (h : Span.Alike n s t) (words : Nat) :
    (∃ e, ofSpan s words = .error e ∧ ofSpan t words = .error e) ∨
      ofSpan s words = .ok ⟨s, words⟩ ∧ ofSpan t words = .ok ⟨t, words⟩ := by
  have hremaining : s.remaining = t.remaining := by
    rw [Span.remaining, Span.remaining, h.position, h.size]
  unfold ofSpan
  rw [hremaining, h.position]
  by_cases hroom : words * bitmapWordSize ≤ t.remaining
  · rw [if_pos hroom, if_pos hroom]
    exact .inr ⟨rfl, rfl⟩
  · rw [if_neg hroom, if_neg hroom]
    exact .inl ⟨_, rfl, rfl⟩

namespace Decoder

variable {d : Decoder}

/-- Values of a fixed size are read alike from two buffers that have their extent in common. -/
def ReadsExtentOnly (d : Decoder) (s : Schema) : Prop :=
  s.isFixedSize → ∀ span place depth, Span.Alike s.extent span place →
    d.reader s span none depth = d.reader s place none depth

theorem readsExtentOnly_of_isCell {s : Schema} (h : s.isCell) : d.ReadsExtentOnly s := by
  intro _ span place depth halike
  refine reader_of_isCell_alike h (fun hwidth => ?_) none depth
  have hextent := Schema.extent_of_isCell h
  rw [hwidth] at hextent
  exact halike.mono (Nat.le_of_eq hextent.symm)

theorem readsExtentOnly_option {inner : Schema} (h : d.ReadsExtentOnly inner) :
    d.ReadsExtentOnly (.option inner) := by
  intro hfixed span place depth halike
  have hbits : (Schema.option inner).bitmapBytes = 1 * bitmapWordSize := by
    simp [Schema.bitmapBytes, Schema.bitmapWords, Schema.optionCount]
  have hextent : (Schema.option inner).extent = 1 * bitmapWordSize + inner.extent := by
    rw [Schema.extent, hbits]
    rfl
  rw [hextent] at halike
  have hbitmap : Span.Alike (1 * bitmapWordSize) span place := halike.mono (Nat.le_add_right _ _)
  show readOption (d.reader inner) span none depth = readOption (d.reader inner) place none depth
  rw [readOption_none, readOption_none, NullBitmap.embedded, NullBitmap.embedded]
  rcases NullBitmap.ofSpan_cases halike 1 with ⟨e, hspan, hplace⟩ | ⟨hspan, hplace⟩
  · rw [hspan, hplace]
    rfl
  · rcases halike.advance_cases bitmapWordSize with ⟨e, hnext, hnext'⟩ | ⟨hnext, hnext'⟩
    · rw [hspan, hplace, hnext, hnext']
      rfl
    · have hpayload := h hfixed _ _ depth (halike.within (Nat.le_refl (bitmapWordSize + inner.extent)))
      simp only [hspan, hplace, hnext, hnext', bind, Except.bind, Decoding.access_ok, Decoding.ok_bind,
        NullBitmap.isNull_alike hbitmap, hpayload]

/-- The leaves of a row are read alike where its bitmap and the extents of its fields are the same. -/
theorem readFieldsBehind_alike {s : Schema} (hfixed : s.isFixedSize)
    (h : ∀ leaf ∈ s.leaves, d.ReadsExtentOnly leaf.schema.withoutOption) {span place : Span}
    (halike : Span.Alike (s.bitmapBytes + Schema.fieldsExtent s.fields) span place) (depth : Nat) :
    d.readFieldsBehind ⟨span, ⟨span, s.bitmapWords⟩, ⟨span.data, span.position + s.bitmapBytes⟩, depth⟩
        [] s.fields [] 0 =
      d.readFieldsBehind
        ⟨place, ⟨place, s.bitmapWords⟩, ⟨place.data, place.position + s.bitmapBytes⟩, depth⟩
        [] s.fields [] 0 := by
  have hbitmap : Span.Alike (s.bitmapWords * bitmapWordSize) span place :=
    halike.mono (Nat.le_add_right _ _)
  apply readFieldsBehind_congr
  · rfl
  · exact halike.position
  · intro front leaf back hsplit
    have hmem : leaf ∈ s.leaves := by
      rw [Schema.leaves, hsplit]
      simp
    have hextent := Schema.extent_le_fieldsExtent hsplit
    apply readLeafBehind_congr
    · rfl
    · exact halike.within (Nat.le_add_right _ _)
    · exact NullBitmap.isNull_alike hbitmap _
    · intro _ depth
      have hslot : Span.Alike leaf.schema.withoutOption.extent
          ⟨span.data, span.position + (s.bitmapBytes + (Place.behind front).offset)⟩
          ⟨place.data, place.position + (s.bitmapBytes + (Place.behind front).offset)⟩ :=
        halike.within (by omega)
      rw [← Nat.add_assoc, ← Nat.add_assoc] at hslot
      apply h leaf hmem
      · rw [Schema.isFixedSize_withoutOption]
        exact Schema.isFixedSize_of_mem_leaves hfixed hmem
      · exact hslot

theorem readsExtentOnly_tuple {field : Schema} {fields : List Schema}
    (h : ∀ leaf ∈ (Schema.tuple (field :: fields)).leaves,
      d.ReadsExtentOnly leaf.schema.withoutOption) :
    d.ReadsExtentOnly (.tuple (field :: fields)) := by
  intro hfixed span place depth halike
  have hopen : d.checkDepth depth span = d.checkDepth depth place := by
    rw [checkDepth, checkDepth, halike.position]
  have hfields := readFieldsBehind_alike hfixed h halike depth
  rw [reader_eq_readNested, reader_eq_readNested, readNested, readNested, hopen]
  rcases NullBitmap.ofSpan_cases halike (Schema.tuple (field :: fields)).bitmapWords with
    ⟨e, hspan, hplace⟩ | ⟨hspan, hplace⟩
  · rw [hspan, hplace]
    rfl
  · rcases halike.advance_cases (Schema.tuple (field :: fields)).bitmapBytes with
      ⟨e, hslots, hslots'⟩ | ⟨hslots, hslots'⟩
    · rw [hspan, hplace, hslots, hslots']
      rfl
    · simp only [hspan, hplace, hslots, hslots', Decoding.access_ok, Decoding.bind_eq,
        Decoding.ok_bind, hfields]

/-- In a row, a leaf that is not null is read as what its option holds, so that goes along in the
induction. -/
theorem readsExtentOnly (d : Decoder) (s : Schema) :
    d.ReadsExtentOnly s ∧ d.ReadsExtentOnly s.withoutOption := by
  induction s using Schema.rowInduction with
  | tuple field fields ih =>
    have htuple := readsExtentOnly_tuple fun leaf hleaf => (ih leaf hleaf).2
    exact ⟨htuple, htuple⟩
  | option inner ih => exact ⟨readsExtentOnly_option ih.1, ih.1⟩
  | list element =>
    have hlist : d.ReadsExtentOnly (.list element) := by
      intro hfixed
      have hcell : (Schema.list element).isCell := by
        simp [Schema.isCell, Schema.isTuple, Schema.isOption, hfixed]
      exact readsExtentOnly_of_isCell hcell hfixed
    exact ⟨hlist, hlist⟩
  | str | blob | dict =>
    refine ⟨fun hfixed => ?_, fun hfixed => ?_⟩
    · cases hfixed
    · cases hfixed
  | _ => exact ⟨readsExtentOnly_of_isCell rfl, readsExtentOnly_of_isCell rfl⟩

mutual

/-- A field that was read has, at the path of each of its leaves, what was read for that leaf. -/
theorem exists_of_readFieldBehind {row : OpenRow} {before : List Leaf} {field : Schema} {path : Path}
    {value : Value} {ds : Diagnostics} (h : d.readFieldBehind row before field path = ⟨.ok value, ds⟩)
    {front back : List Leaf} {leaf : Leaf} (hsplit : field.leavesAt path = front ++ leaf :: back) :
    ∃ rest item es, leaf.path = path ++ rest ∧ value.fieldAt? rest = some item ∧
      d.readLeafBehind row (before ++ front) leaf.schema leaf.path = ⟨.ok item, es⟩ := by
  by_cases htuple : field.isTuple
  · match field, htuple with
    | .tuple (first :: fields), _ =>
      rw [readFieldBehind] at h
      obtain ⟨_, _, _, _, hrow, _⟩ := Decoding.bind_eq_ok_iff.mp h
      obtain ⟨items, _, _, hitems, hvalue, _⟩ := Decoding.bind_eq_ok_iff.mp hrow
      obtain rfl : Value.tuple items = value :=
        Except.ok.inj (congrArg Decoding.result hvalue)
      obtain ⟨j, rest, item, es, hpath, hitem, hread⟩ := exists_of_readFieldsBehind hitems hsplit
      rw [Nat.zero_add] at hpath
      exact ⟨j :: rest, item, es, hpath, hitem, hread⟩
  · have hleaf : field.isTuple = false := by simpa using htuple
    rw [Schema.leavesAt_of_not_isTuple hleaf] at hsplit
    obtain ⟨rfl, rfl, _⟩ := singleton_eq_append_cons hsplit
    rw [readFieldBehind_of_not_isTuple hleaf] at h
    refine ⟨[], value, ds, ?_, rfl, ?_⟩
    · rw [List.append_nil]
    · rw [List.append_nil]
      exact h
termination_by sizeOf field

theorem exists_of_readFieldsBehind {row : OpenRow} {before : List Leaf} {fields : List Schema}
    {path : Path} {i : Nat} {items : List Value} {ds : Diagnostics}
    (h : d.readFieldsBehind row before fields path i = ⟨.ok items, ds⟩)
    {front back : List Leaf} {leaf : Leaf}
    (hsplit : Schema.leavesFrom fields path i = front ++ leaf :: back) :
    ∃ j rest item es, leaf.path = path ++ (i + j) :: rest ∧
      (Value.tuple items).fieldAt? (j :: rest) = some item ∧
      d.readLeafBehind row (before ++ front) leaf.schema leaf.path = ⟨.ok item, es⟩ := by
  match fields with
  | [] => simp [Schema.leavesFrom] at hsplit
  | field :: fields =>
    rw [readFieldsBehind] at h
    obtain ⟨first, _, _, hfirst, hrest, _⟩ := Decoding.bind_eq_ok_iff.mp h
    obtain ⟨others, _, _, hothers, hitems, _⟩ := Decoding.bind_eq_ok_iff.mp hrest
    obtain rfl : first :: others = items := Except.ok.inj (congrArg Decoding.result hitems)
    rcases exists_of_append_eq_append_cons hsplit with ⟨tail, hfield⟩ | ⟨more, rfl, hmore⟩
    · obtain ⟨rest, item, es, hpath, hitem, hread⟩ := exists_of_readFieldBehind hfirst hfield
      refine ⟨0, rest, item, es, ?_, hitem, hread⟩
      rw [hpath, List.append_assoc]
      rfl
    · obtain ⟨j, rest, item, es, hpath, hitem, hread⟩ := exists_of_readFieldsBehind hothers hmore
      refine ⟨j + 1, rest, item, es, ?_, hitem, ?_⟩
      · rw [hpath]
        congr 2
        omega
      · rw [← List.append_assoc]
        exact hread
termination_by sizeOf fields

end

/-- A row that was read has, at the path of each of its leaves, what was read for that leaf. -/
theorem exists_of_readRow {fields : List Schema} {data : ByteArray} {value : Value} {ds : Diagnostics}
    (h : d.readRow data (.tuple fields) = ⟨.ok value, ds⟩) {before back : List Leaf} {leaf : Leaf}
    (hleaves : (Schema.tuple fields).leaves = before ++ leaf :: back) :
    ∃ item es, value.fieldAt? leaf.path = some item ∧
      d.readLeafBehind (.ofBytes data (Schema.tuple fields).bitmapWords) before leaf.schema leaf.path =
        ⟨.ok item, es⟩ := by
  cases fields with
  | nil => simp [Schema.leaves, Schema.fields, Schema.leavesFrom] at hleaves
  | cons field fields =>
    rw [readRow, read, reader_eq_readNested, readNested_ofBytes] at h
    obtain ⟨_, _, _, _, hrow, _⟩ := Decoding.bind_eq_ok_iff.mp h
    split at hrow
    next hroom =>
      obtain ⟨items, _, _, hitems, hvalue, _⟩ := Decoding.bind_eq_ok_iff.mp hrow
      obtain rfl : Value.tuple items = value := Except.ok.inj (congrArg Decoding.result hvalue)
      obtain ⟨j, rest, item, es, hpath, hitem, hread⟩ := exists_of_readFieldsBehind hitems hleaves
      rw [Nat.zero_add, List.nil_append] at hpath
      rw [List.nil_append] at hread
      exact ⟨item, es, by rw [hpath, hitem], hread⟩
    next hroom => cases hrow

/-- What a row holds at a path depends on its bitmap, on `n` bytes at an offset behind that and on
nothing else: two buffers of the same size that have these in common hold the same there, if both hold
a row. -/
def ConfinedTo (d : Decoder) (fields : List Schema) (path : Path) (offset n : Nat) : Prop :=
  ∀ (data other : ByteArray) (value value' : Value) (ds ds' : Diagnostics),
    data.size = other.size →
    data.extract 0 (Schema.tuple fields).bitmapBytes =
      other.extract 0 (Schema.tuple fields).bitmapBytes →
    data.extract ((Schema.tuple fields).bitmapBytes + offset)
        ((Schema.tuple fields).bitmapBytes + offset + n) =
      other.extract ((Schema.tuple fields).bitmapBytes + offset)
        ((Schema.tuple fields).bitmapBytes + offset + n) →
    d.readRow data (.tuple fields) = ⟨.ok value, ds⟩ →
    d.readRow other (.tuple fields) = ⟨.ok value', ds'⟩ →
    ∃ item, value.fieldAt? path = some item ∧ value'.fieldAt? path = some item

theorem ConfinedTo.mono {fields : List Schema} {path : Path} {offset m n : Nat}
    (h : d.ConfinedTo fields path offset m) (hle : m ≤ n) : d.ConfinedTo fields path offset n := by
  intro data other value value' ds ds' hsize hbitmap hslot
  have halike : Span.Alike n ⟨data, (Schema.tuple fields).bitmapBytes + offset⟩
      ⟨other, (Schema.tuple fields).bitmapBytes + offset⟩ := ⟨rfl, hsize, hslot⟩
  exact h data other value value' ds ds' hsize hbitmap (halike.mono hle).bytes

theorem confinedTo_extent {fields : List Schema} {before back : List Leaf} {leaf : Leaf}
    (hleaves : (Schema.tuple fields).leaves = before ++ leaf :: back)
    (hfixed : leaf.schema.isFixedSize) :
    d.ConfinedTo fields leaf.path (Place.behind before).offset leaf.schema.withoutOption.extent := by
  intro data other value value' ds ds' hsize hbitmap hslot h h'
  have hbits : Span.Alike ((Schema.tuple fields).bitmapWords * bitmapWordSize) (Span.ofBytes data)
      (Span.ofBytes other) := .ofBytes hsize hbitmap
  have hsame : d.readLeafBehind (.ofBytes data (Schema.tuple fields).bitmapWords) before leaf.schema
        leaf.path =
      d.readLeafBehind (.ofBytes other (Schema.tuple fields).bitmapWords) before leaf.schema
        leaf.path := by
    apply readLeafBehind_congr
    · rfl
    · refine ⟨rfl, hsize, ?_⟩
      simp only [Nat.add_zero, ByteArray.extract_same]
    · exact NullBitmap.isNull_alike hbits _
    · intro _ depth
      apply (readsExtentOnly d leaf.schema).2
      · rw [Schema.isFixedSize_withoutOption]
        exact hfixed
      · exact ⟨rfl, hsize, hslot⟩
  obtain ⟨item, es, hitem, hread⟩ := exists_of_readRow h hleaves
  obtain ⟨item', es', hitem', hread'⟩ := exists_of_readRow h' hleaves
  rw [hsame, hread'] at hread
  obtain rfl : item' = item := Except.ok.inj (congrArg Decoding.result hread)
  exact ⟨item', hitem, hitem'⟩

/-- In any row, what a leaf of fixed size holds is confined to the extent of the leaf, and to the one
slot that is counted for it if the leaf is no row itself. -/
theorem leaf_confinedTo (d : Decoder) (fields : List Schema) {before back : List Leaf} {leaf : Leaf}
    (hleaves : (Schema.tuple fields).leaves = before ++ leaf :: back)
    (hfixed : leaf.schema.isFixedSize) :
    (leaf.schema.withoutOption.isCell →
        d.ConfinedTo fields leaf.path (Place.behind before).offset slotSize) ∧
      d.ConfinedTo fields leaf.path (Place.behind before).offset leaf.schema.withoutOption.extent := by
  have hconfined : d.ConfinedTo fields leaf.path (Place.behind before).offset
      leaf.schema.withoutOption.extent := confinedTo_extent hleaves hfixed
  refine ⟨fun hcell => hconfined.mono ?_, hconfined⟩
  rw [Schema.extent_of_isCell hcell]
  split
  next => exact Nat.zero_le slotSize
  next => exact Nat.le_refl slotSize

/-- A nullable pair and one number more, which lies where the second number of the pair does. -/
def pairAndNumber : List Schema := [.option (.tuple [.int, .int]), .int]

/-- The pair is confined to two slots, and the number behind it to its own. -/
theorem leaf_confinedTo_pairAndNumber :
    standard.ConfinedTo pairAndNumber [0] 0 16 ∧ standard.ConfinedTo pairAndNumber [1] 8 slotSize := by
  have hpair : (Schema.tuple pairAndNumber).leaves =
      [] ++ ⟨[0], .option (.tuple [.int, .int])⟩ :: [⟨[1], .int⟩] := by rfl
  have hnumber : (Schema.tuple pairAndNumber).leaves =
      [⟨[0], .option (.tuple [.int, .int])⟩] ++ ⟨[1], .int⟩ :: [] := by rfl
  exact ⟨(leaf_confinedTo standard _ hpair rfl).2, (leaf_confinedTo standard _ hnumber rfl).1 rfl⟩

/-- A row of that schema: its bitmap, in which nothing is null, and two slots. -/
def oneTwo : ByteArray := joined ([0, 1, 2].map wordBytes)

def oneThree : ByteArray := joined ([0, 1, 3].map wordBytes)

/-- The pair goes on behind its slot, so it changes with the slot of the number behind it. -/
theorem not_confinedTo_slot :
    (Schema.tuple pairAndNumber).leaves =
        [] ++ ⟨[0], .option (.tuple [.int, .int])⟩ :: [⟨[1], .int⟩] ∧
      (Schema.tuple pairAndNumber).isFixedSize ∧
      standard.readRow oneTwo (.tuple pairAndNumber) =
        ⟨.ok (.tuple [.tuple [.int 1, .int 2], .int 2]), []⟩ ∧
      standard.readRow oneThree (.tuple pairAndNumber) =
        ⟨.ok (.tuple [.tuple [.int 1, .int 3], .int 3]), []⟩ ∧
      ¬standard.ConfinedTo pairAndNumber [0] 0 slotSize := by
  have htwo : standard.readRow oneTwo (.tuple pairAndNumber) =
      ⟨.ok (.tuple [.tuple [.int 1, .int 2], .int 2]), []⟩ := by cbv
  have hthree : standard.readRow oneThree (.tuple pairAndNumber) =
      ⟨.ok (.tuple [.tuple [.int 1, .int 3], .int 3]), []⟩ := by cbv
  refine ⟨rfl, rfl, htwo, hthree, fun h => ?_⟩
  -- Both rows have the bitmap and the first slot in common.
  obtain ⟨item, hpair, hother⟩ := h oneTwo oneThree _ _ _ _ (by rfl) (by rfl) (by rfl) htwo hthree
  have hfirst : Value.tuple [.int 1, .int 2] = item := Option.some.inj hpair
  have hsecond : Value.tuple [.int 1, .int 3] = item := Option.some.inj hother
  simp [← hfirst] at hsecond

end Decoder

end RowFormat
