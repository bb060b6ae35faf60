import RowFormat.Proofs.Frames

namespace RowFormat

/-- The bit and the slot behind some leaves of a row. Each nullable leaf takes a bit, and each leaf
with a width takes a slot. -/
def Place.behind (leaves : List Leaf) : Place where
  bit := leaves.countP fun leaf => leaf.schema.isOption
  offset := slotSize * leaves.countP fun leaf => !leaf.schema.withoutOption.isZeroWidth

theorem Place.next_behind (leaves : List Leaf) (leaf : Leaf) :
    (behind leaves).next leaf.schema = behind (leaves ++ [leaf]) := by
  have hbit : (if leaf.schema.isOption then (behind leaves).bit + 1 else (behind leaves).bit) =
      (behind (leaves ++ [leaf])).bit := by
    simp only [behind, List.countP_append, List.countP_singleton]
    split
    next => rfl
    next => rfl
  have hoffset : (if leaf.schema.withoutOption.isZeroWidth then (behind leaves).offset
      else (behind leaves).offset + slotSize) = (behind (leaves ++ [leaf])).offset := by
    simp only [behind, List.countP_append, List.countP_singleton]
    cases leaf.schema.withoutOption.isZeroWidth with
    | true => rfl
    | false => rfl
  rw [next, hbit, hoffset]

namespace Decoder

/-- Reads a field that is no tuple, behind some leaves of its row. -/
def readLeafBehind (d : Decoder) (row : OpenRow) (before : List Leaf) (schema : Schema) (path : Path) :
    Decoding Value := do
  let slot ← .access (row.fixed.advance (Place.behind before).offset)
  let bit := if schema.isOption then some ⟨row.bitmap, (Place.behind before).bit⟩ else none
  (d.reader schema slot bit (row.depth + path.length)).within (Fault.field path schema slot.position)

mutual

/-- Reads the field at `path`, behind some leaves of its row. -/
def readFieldBehind (d : Decoder) (row : OpenRow) (before : List Leaf) :
    Schema → Path → Decoding Value
  | .tuple (field :: fields), path => do
    .ofExcept (d.checkDepth (row.depth + path.length) row.start)
    let items ← readFieldsBehind d row before (field :: fields) path 0
    pure (.tuple items)
  | schema, path => d.readLeafBehind row before schema path

/-- Reads some fields, the first of which has the given index under `path`. -/
def readFieldsBehind (d : Decoder) (row : OpenRow) (before : List Leaf) :
    List Schema → Path → Nat → Decoding (List Value)
  | [], _, _ => pure []
  | field :: fields, path, i => do
    let item ← readFieldBehind d row before field (path ++ [i])
    let items ← readFieldsBehind d row (before ++ field.leavesAt (path ++ [i])) fields path (i + 1)
    pure (item :: items)

end

/-- Reads a row of some fields: its bitmap, and then its fields from left to right. -/
def readNested (d : Decoder) (schema : Schema) (span : Span) (depth : Nat) : Decoding Value := do
  .ofExcept (d.checkDepth depth span)
  let bitmap ← .access (NullBitmap.ofSpan span schema.bitmapWords)
  let fixed ← .access (span.advance schema.bitmapBytes)
  let items ← d.readFieldsBehind ⟨span, bitmap, fixed, depth⟩ [] schema.fields [] 0
  pure (.tuple items)

theorem readFieldBehind_of_not_isTuple {s : Schema} (h : s.isTuple = false) (d : Decoder)
    (row : OpenRow) (before : List Leaf) (path : Path) :
    d.readFieldBehind row before s path = d.readLeafBehind row before s path := by
  cases s with
  | tuple fields =>
    cases fields with
    | nil => rfl
    | cons field fields => simp [Schema.isTuple] at h
  | _ => rfl

open Decoding (Agree)

theorem readSlot_agrees_readLeafBehind (d : Decoder) (row : OpenRow) (before : List Leaf)
    (schema : Schema) (path : Path) :
    Agree (fun r value => r = (value, Place.behind (before ++ [⟨path, schema⟩])))
      (d.readSlot row schema path (Place.behind before))
      (d.readLeafBehind row before schema path) := by
  have hnext := Place.next_behind before ⟨path, schema⟩
  unfold readSlot readLeafBehind
  refine .bind_same _ fun slot => ?_
  rw [← Decoding.bind_ok (Decoding.within _ _)]
  refine .bind_same _ fun value => ?_
  exact .ok [] (congrArg (Prod.mk value) hnext)

mutual

theorem readField_agrees_readFieldBehind (d : Decoder) (row : OpenRow) (before : List Leaf)
    (field : Schema) (path : Path) :
    Agree (fun r value => r = (value, Place.behind (before ++ field.leavesAt path)))
      (d.readField row field path (Place.behind before))
      (d.readFieldBehind row before field path) := by
  by_cases htuple : field.isTuple
  · match field, htuple with
    | .tuple (first :: fields), _ =>
      rw [readField, readFieldBehind, Schema.leavesAt]
      refine .bind_same _ fun _ => ?_
      refine (readFields_agrees_readFieldsBehind d row before (first :: fields) path 0).bind ?_
      rintro r items rfl
      exact .ok [] rfl
  · have hleaf : field.isTuple = false := by simpa using htuple
    rw [readField_of_not_isTuple hleaf, readFieldBehind_of_not_isTuple hleaf,
      Schema.leavesAt_of_not_isTuple hleaf]
    exact readSlot_agrees_readLeafBehind d row before field path
termination_by sizeOf field

theorem readFields_agrees_readFieldsBehind (d : Decoder) (row : OpenRow) (before : List Leaf)
    (fields : List Schema) (path : Path) (i : Nat) :
    Agree (fun r items => r = (items, Place.behind (before ++ Schema.leavesFrom fields path i)))
      (d.readFields row fields path i (Place.behind before))
      (d.readFieldsBehind row before fields path i) := by
  match fields with
  | [] =>
    rw [Schema.leavesFrom, List.append_nil]
    exact .ok [] rfl
  | field :: fields =>
    rw [readFields, readFieldsBehind, Schema.leavesFrom, ← List.append_assoc]
    refine (readField_agrees_readFieldBehind d row before field (path ++ [i])).bind ?_
    rintro r item rfl
    refine (readFields_agrees_readFieldsBehind d row _ fields path (i + 1)).bind ?_
    rintro r items rfl
    exact .ok [] rfl
termination_by sizeOf fields

end

theorem readRecord_eq_readNested (d : Decoder) (schema : Schema) (span : Span) (depth : Nat) :
    d.readRecord schema span depth = d.readNested schema span depth := by
  refine Agree.eq ?_
  unfold readRecord readNested
  refine .bind_same _ fun _ => ?_
  cases hbitmap : NullBitmap.ofSpan span schema.bitmapWords with
  | error e => exact .fail _ []
  | ok bitmap =>
    obtain ⟨_, rfl⟩ := NullBitmap.ofSpan_eq_ok_iff.mp hbitmap
    simp only [Decoding.access_ok, Decoding.bind_eq, Decoding.ok_bind]
    refine .bind_same _ fun fixed => ?_
    refine (readFields_agrees_readFieldsBehind d _ [] schema.fields [] 0).bind ?_
    rintro r items rfl
    exact .ok [] rfl

theorem reader_eq_readNested (d : Decoder) (field : Schema) (fields : List Schema) (span : Span)
    (bit : Option NullBit) (depth : Nat) :
    d.reader (.tuple (field :: fields)) span bit depth =
      d.readNested (.tuple (field :: fields)) span depth := by
  rw [reader_tuple, readRecord_eq_readNested]

mutual

theorem readFieldBehind_congr {d : Decoder} {row row' : OpenRow} (hdepth : row.depth = row'.depth)
    (hstart : row.start.position = row'.start.position) {before : List Leaf} {field : Schema}
    {path : Path} (h : ∀ front leaf back, field.leavesAt path = front ++ leaf :: back →
      d.readLeafBehind row (before ++ front) leaf.schema leaf.path =
        d.readLeafBehind row' (before ++ front) leaf.schema leaf.path) :
    d.readFieldBehind row before field path = d.readFieldBehind row' before field path := by
  by_cases htuple : field.isTuple
  · match field, htuple with
    | .tuple (first :: fields), _ =>
      have hfields : d.readFieldsBehind row before (first :: fields) path 0 =
          d.readFieldsBehind row' before (first :: fields) path 0 :=
        readFieldsBehind_congr hdepth hstart h
      rw [readFieldBehind, readFieldBehind, checkDepth, checkDepth, hfields, hdepth, hstart]
  · have hleaf : field.isTuple = false := by simpa using htuple
    have hread := h [] ⟨path, field⟩ [] (Schema.leavesAt_of_not_isTuple hleaf path)
    rw [List.append_nil] at hread
    rw [readFieldBehind_of_not_isTuple hleaf, readFieldBehind_of_not_isTuple hleaf]
    exact hread
termination_by sizeOf field

/-- Rows whose leaves are read alike are read alike. -/
theorem readFieldsBehind_congr {d : Decoder} {row row' : OpenRow} (hdepth : row.depth = row'.depth)
    (hstart : row.start.position = row'.start.position) {before : List Leaf} {fields : List Schema}
    {path : Path} {i : Nat}
    (h : ∀ front leaf back, Schema.leavesFrom fields path i = front ++ leaf :: back →
      d.readLeafBehind row (before ++ front) leaf.schema leaf.path =
        d.readLeafBehind row' (before ++ front) leaf.schema leaf.path) :
    d.readFieldsBehind row before fields path i = d.readFieldsBehind row' before fields path i := by
  match fields with
  | [] => rfl
  | field :: fields =>
    rw [Schema.leavesFrom] at h
    have hfirst : d.readFieldBehind row before field (path ++ [i]) =
        d.readFieldBehind row' before field (path ++ [i]) := by
      refine readFieldBehind_congr hdepth hstart fun front leaf back hsplit => ?_
      exact h front leaf (back ++ _) (by rw [hsplit, List.append_assoc, List.cons_append])
    have hrest : d.readFieldsBehind row (before ++ field.leavesAt (path ++ [i])) fields path (i + 1) =
        d.readFieldsBehind row' (before ++ field.leavesAt (path ++ [i])) fields path (i + 1) := by
      refine readFieldsBehind_congr hdepth hstart fun front leaf back hsplit => ?_
      rw [List.append_assoc]
      exact h _ leaf back (by rw [hsplit, List.append_assoc])
    rw [readFieldsBehind, readFieldsBehind, hfirst, hrest]
termination_by sizeOf fields

end

end Decoder

end RowFormat
