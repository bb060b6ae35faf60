import RowFormat.Proofs.Bytes
import RowFormat.Proofs.Conformance
import Mathlib.Data.Nat.Bitwise

namespace RowFormat

/-- A leaf of a row with what it holds. -/
structure Cell where
  schema : Schema
  value : Value

namespace Cell

mutual

/-- The leaves of a field with what they hold. -/
def cellsAt : Schema → Value → List Cell
  | .tuple (field :: fields), .tuple items => cellsFrom (field :: fields) items
  | schema, value => [⟨schema, value⟩]

/-- The leaves of some fields with what they hold. -/
def cellsFrom : List Schema → List Value → List Cell
  | field :: fields, item :: items => cellsAt field item ++ cellsFrom fields items
  | _, _ => []

end

/-- For each nullable leaf, whether it is null. -/
def marks (cells : List Cell) : List Bool :=
  (cells.filter fun cell => cell.schema.isOption).map fun cell => cell.value.isNull

theorem cellsAt_of_not_isTuple {s : Schema} (h : s.isTuple = false) (value : Value) :
    cellsAt s value = [⟨s, value⟩] := by
  cases s with
  | tuple fields =>
    cases fields with
    | nil => rfl
    | cons field fields => simp [Schema.isTuple] at h
  | _ => rfl

mutual

theorem map_schema_cellsAt {lossy : Prop} {s : Schema} {value : Value} (h : Conforms lossy s value)
    (path : Path) : (cellsAt s value).map Cell.schema = (s.leavesAt path).map Leaf.schema := by
  match s with
  | .tuple (field :: fields) =>
    cases h with
    | tuple h =>
      rw [cellsAt, Schema.leavesAt]
      exact map_schema_cellsFrom h path 0
  | .tuple [] | .bool | .int | .float | .str | .blob | .null | .emptyTuple | .emptyList
  | .emptyDict | .list _ | .dict | .option _ =>
    rw [cellsAt_of_not_isTuple rfl, Schema.leavesAt_of_not_isTuple rfl]
    rfl

theorem map_schema_cellsFrom {lossy : Prop} {fields : List Schema} {items : List Value}
    (h : List.Forall₂ (Conforms lossy) fields items) (path : Path) (i : Nat) :
    (cellsFrom fields items).map Cell.schema =
      (Schema.leavesFrom fields path i).map Leaf.schema := by
  match fields, items, h with
  | [], [], _ => rfl
  | field :: fields, item :: items, .cons hfirst hrest =>
    rw [cellsFrom, Schema.leavesFrom, List.map_append, List.map_append,
      map_schema_cellsAt hfirst, map_schema_cellsFrom hrest]

end

variable {lossy : Prop} {s : Schema} {value : Value}

theorem length_marks (h : Conforms lossy s value) :
    (marks (cellsAt s value)).length = s.optionCount := by
  have hcells : (marks (cellsAt s value)).length =
      ((cellsAt s value).map Cell.schema).countP Schema.isOption := by
    rw [marks, List.length_map, ← List.countP_eq_length_filter, List.countP_map]
    rfl
  rw [hcells, map_schema_cellsAt h [], List.countP_map, Schema.optionCount_eq_countP s []]
  rfl

theorem isFixedSize_of_mem_cellsAt (h : Conforms lossy s value) (hfixed : s.isFixedSize = true)
    {cell : Cell} (hcell : cell ∈ cellsAt s value) : cell.schema.isFixedSize = true := by
  have hmem := List.mem_map_of_mem (f := Cell.schema) hcell
  rw [map_schema_cellsAt h []] at hmem
  obtain ⟨leaf, hleaf, heq⟩ := List.mem_map.mp hmem
  rw [Schema.isFixedSize_eq_all s [], List.all_eq_true] at hfixed
  rw [← heq]
  exact hfixed leaf hleaf

theorem length_cellsAt (h : Conforms lossy s value) (htuple : s.isTuple = true) :
    (cellsAt s value).length = s.leaves.length := by
  have hlength := congrArg List.length (map_schema_cellsAt h [])
  rw [List.length_map, List.length_map] at hlength
  obtain ⟨field, fields, rfl⟩ := Schema.eq_tuple_of_isTuple htuple
  exact hlength

end Cell

/-- What a leaf puts into its row: the word in its slot, or a payload for its slot to point at. -/
inductive Stored
  | word (w : UInt64)
  | payload (bytes : ByteArray)

namespace Stored

def bytes : Stored → ByteArray
  | word _ => ByteArray.empty
  | payload bytes => bytes

/-- The word in the slot, for a payload at a distance from it. -/
def slot (distance : Nat) : Stored → UInt64
  | word w => w
  | payload bytes => (Descriptor.mk (.ofNat distance) (.ofNat bytes.size)).toWord

/-- The slots of leaves whose payloads come behind others of the given size. The payloads begin
behind the last slot and the length word. -/
def slots (before : Nat) : List Stored → List UInt64
  | [] => []
  | x :: xs =>
    x.slot (slotSize * (xs.length + 1) + lengthWordSize + before) ::
      slots (before + x.bytes.size) xs

def payloads (xs : List Stored) : ByteArray := joined (xs.map bytes)

theorem length_slots (before : Nat) (xs : List Stored) : (slots before xs).length = xs.length := by
  induction xs generalizing before with
  | nil => rfl
  | cons x xs ih => rw [slots, List.length_cons, List.length_cons, ih]

theorem slots_getElem? {before i : Nat} {xs : List Stored} {x : Stored} (h : xs[i]? = some x) :
    (slots before xs)[i]? =
      some (x.slot (slotSize * (xs.length - i) + lengthWordSize + before +
        (payloads (xs.take i)).size)) := by
  induction xs generalizing before i with
  | nil => simp at h
  | cons y xs ih =>
    cases i with
    | zero =>
      obtain rfl := Option.some.inj h
      simp [slots, payloads, joined]
    | succ i =>
      rw [List.getElem?_cons_succ] at h
      have hlength : (y :: xs).length - (i + 1) = xs.length - i := by simp
      have hsize : (payloads ((y :: xs).take (i + 1))).size =
          y.bytes.size + (payloads (xs.take i)).size := by
        simp [payloads, joined]
      rw [slots, List.getElem?_cons_succ, ih h, hlength, hsize]
      congr 2
      omega

theorem payloads_eq_of_getElem? {i : Nat} {xs : List Stored} {x : Stored} (h : xs[i]? = some x) :
    payloads xs = payloads (xs.take i) ++ x.bytes ++ payloads (xs.drop (i + 1)) := by
  have hbytes : (xs.map bytes)[i]? = some x.bytes := by simp [h]
  simp only [payloads, List.map_take, List.map_drop]
  exact joined_eq_of_getElem? hbytes

end Stored

/-- What the layout leaves open: the bits behind the last nullable leaf, the slots of nulls, and
the bytes that terminate texts. -/
structure Filler where
  bit : Nat → Bool
  slot : Nat → UInt64
  terminator : Nat → UInt8

namespace Filler

/-- What the leaf number `i` puts into its row. -/
def stored (f : Filler) (i : Nat) : Value → Stored
  | .bool b => .word (if b then 1 else 0)
  | .int n => .word n.toUInt64
  | .float x => .word x.bits
  | .str text => .payload (text.toUTF8.push (f.terminator i))
  | .blob bytes => .payload bytes
  | _ => .word (f.slot i)

/-- The bitmap word number `i`. -/
def bitmapWord (f : Filler) (marks : List Bool) (i : Nat) : UInt64 :=
  UInt64.ofNat (Nat.ofBits fun k : Fin bitmapWordBits =>
    (marks[bitmapWordBits * i + k]?).getD (f.bit (bitmapWordBits * i + k)))

/-- What the leaves put into their row. -/
def contents (f : Filler) (cells : List Cell) : List Stored :=
  cells.mapIdx fun i cell => f.stored i cell.value

/-- The words of a row in front of its variable-length region. -/
def head (f : Filler) (words : Nat) (cells : List Cell) : List UInt64 :=
  (List.range words).map (f.bitmapWord (Cell.marks cells)) ++
    Stored.slots 0 (f.contents cells)

/-- A row of the given number of bitmap words. It has a variable-length region unless its size is
fixed. -/
def image (f : Filler) (words : Nat) (fixed : Bool) (cells : List Cell) : ByteArray :=
  let payloads := Stored.payloads (f.contents cells)
  let region := if fixed then ByteArray.empty else wordBytes (UInt64.ofNat payloads.size) ++ payloads
  joined ((f.head words cells).map wordBytes) ++ region

/-- The row that holds a value. -/
def encode (f : Filler) (schema : Schema) (value : Value) : ByteArray :=
  f.image schema.bitmapWords schema.isFixedSize (Cell.cellsAt schema value)

variable {f : Filler} {words i : Nat} {fixed : Bool} {cells : List Cell} {cell : Cell}

theorem head_getElem?_bitmap (h : i < words) :
    (f.head words cells)[i]? = some (f.bitmapWord (Cell.marks cells) i) := by
  have hlength : i < ((List.range words).map (f.bitmapWord (Cell.marks cells))).length := by
    simpa using h
  rw [head, List.getElem?_append_left hlength]
  simp [h]

theorem length_contents : (f.contents cells).length = cells.length := by simp [contents]

theorem contents_getElem? (h : cells[i]? = some cell) :
    (f.contents cells)[i]? = some (f.stored i cell.value) := by
  simp [contents, h]

theorem head_getElem?_slot (h : cells[i]? = some cell) :
    (f.head words cells)[words + i]? =
      some ((f.stored i cell.value).slot (slotSize * (cells.length - i) + lengthWordSize +
        (Stored.payloads ((f.contents cells).take i)).size)) := by
  have hlength : ((List.range words).map (f.bitmapWord (Cell.marks cells))).length = words := by simp
  rw [head, List.getElem?_append_right (by omega), hlength, Nat.add_sub_cancel_left,
    Stored.slots_getElem? (contents_getElem? h), length_contents, Nat.add_zero]

theorem length_head : (f.head words cells).length = words + cells.length := by
  simp [head, Stored.length_slots, length_contents]

theorem word_image {w : UInt64} (h : (f.head words cells)[i]? = some w) :
    (⟨f.image words fixed cells, slotSize * i⟩ : Span).word = .ok w :=
  Span.wordAt_joined h _ _ rfl

theorem size_head_le : slotSize * (words + cells.length) ≤ (f.image words fixed cells).size := by
  rw [image, ByteArray.size_append, size_joined_wordBytes, length_head]
  omega

theorem testBit_bitmapWord (marks : List Bool) (k : Nat) :
    (f.bitmapWord marks (k / bitmapWordBits)).toNat.testBit (k % bitmapWordBits) =
      (marks[k]?).getD (f.bit k) := by
  have hk : k % bitmapWordBits < bitmapWordBits := Nat.mod_lt k (by decide)
  have hsplit : bitmapWordBits * (k / bitmapWordBits) + k % bitmapWordBits = k :=
    Nat.div_add_mod k bitmapWordBits
  rw [bitmapWord, UInt64.toNat_ofNat', Nat.mod_eq_of_lt (Nat.ofBits_lt_two_pow _),
    Nat.testBit_ofBits_lt _ _ hk]
  simp only [hsplit]

theorem isNull_image {k : Nat} {b : Bool} (hroom : (Cell.marks cells).length ≤ bitmapWordBits * words)
    (h : (Cell.marks cells)[k]? = some b) :
    (⟨⟨f.image words fixed cells, 0⟩, words⟩ : NullBitmap).isNull k = .ok b := by
  have hk := (List.getElem?_eq_some_iff.mp h).choose
  have hword : k / bitmapWordBits < words := by
    simp only [bitmapWordBits] at hroom ⊢
    omega
  have hhead : slotSize * (words + cells.length) ≤ (f.image words fixed cells).size := size_head_le
  have hplace : (⟨f.image words fixed cells, 0⟩ : Span).advance (k / bitmapWordBits * bitmapWordSize) =
      .ok ⟨f.image words fixed cells, slotSize * (k / bitmapWordBits)⟩ := by
    rw [Span.advance_eq_ok_iff]
    simp only [bitmapWordSize, slotSize, Span.mk.injEq, true_and] at hhead ⊢
    omega
  have hfound : (f.head words cells)[k / bitmapWordBits]? =
      some (f.bitmapWord (Cell.marks cells) (k / bitmapWordBits)) := head_getElem?_bitmap hword
  have hread : (⟨f.image words fixed cells, slotSize * (k / bitmapWordBits)⟩ : Span).word =
      .ok (f.bitmapWord (Cell.marks cells) (k / bitmapWordBits)) := word_image hfound
  simp [NullBitmap.isNull, NullBitmap.word, hword, Span.wordAt, hplace, hread, bind, Except.bind,
    Except.map, testBit_bitmapWord, h]

/-- Where a payload lies in its row. -/
theorem image_eq_of_payload (words : Nat) {b : ByteArray}
    (h : (f.contents cells)[i]? = some (.payload b)) :
    ∃ pre suf, f.image words false cells = pre ++ b ++ suf ∧
      pre.size = slotSize * (words + cells.length) + lengthWordSize +
        (Stored.payloads ((f.contents cells).take i)).size := by
  refine ⟨joined ((f.head words cells).map wordBytes) ++
    wordBytes (UInt64.ofNat (Stored.payloads (f.contents cells)).size) ++
      Stored.payloads ((f.contents cells).take i),
    Stored.payloads ((f.contents cells).drop (i + 1)), ?_, ?_⟩
  · have hsplit := Stored.payloads_eq_of_getElem? h
    simp only [Stored.bytes] at hsplit
    simp only [image, Bool.false_eq_true, if_false, ByteArray.append_assoc]
    rw [hsplit, ByteArray.append_assoc]
  · simp only [ByteArray.size_append, size_joined_wordBytes, size_wordBytes, length_head]

theorem size_image_of_fixed :
    (f.image words true cells).size = slotSize * (words + cells.length) := by
  simp [image, length_head]

theorem size_image_of_not_fixed :
    (f.image words false cells).size = slotSize * (words + cells.length) + lengthWordSize +
      (Stored.payloads (f.contents cells)).size := by
  simp [image, length_head, Nat.add_assoc]

theorem lengthWord_image :
    (⟨f.image words false cells, slotSize * (words + cells.length)⟩ : Span).word =
      .ok (UInt64.ofNat (Stored.payloads (f.contents cells)).size) := by
  have hlast := Span.word_append (joined ((f.head words cells).map wordBytes))
    (UInt64.ofNat (Stored.payloads (f.contents cells)).size) (Stored.payloads (f.contents cells))
  rw [size_joined_wordBytes, length_head, ByteArray.append_assoc] at hlast
  exact hlast

end Filler

end RowFormat
