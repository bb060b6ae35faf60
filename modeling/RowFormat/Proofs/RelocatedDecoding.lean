import RowFormat.Proofs.Relocation

namespace RowFormat

/-- The same diagnostic some bytes further on. -/
def Diagnostic.moved (k : Nat) (d : Diagnostic) : Diagnostic := { d with position := d.position + k }

@[simp]
theorem Diagnostic.moved_zero : Diagnostic.moved 0 = id := rfl

namespace Decoding

variable {α β γ δ : Type} {k : Nat}

/-- What the first decoding returns, the second returns too, seen through `f`, and with the same
diagnostics `k` bytes further on. -/
def Moves (k : Nat) (f : α → β) (x : Decoding α) (y : Decoding β) : Prop :=
  ∀ a ds, x = ⟨.ok a, ds⟩ → y = ⟨.ok (f a), ds.map (Diagnostic.moved k)⟩

namespace Moves

theorem ok (f : α → β) (a : α) : Moves k f (.ok a) (.ok (f a)) := by
  intro b ds h
  cases h
  rfl

theorem of_fail (f : α → β) (e : Fault) (y : Decoding β) : Moves k f (.fail e) y := by
  intro a ds h
  cases h

theorem ofExcept {f : α → β} {x : Except Fault α} {y : Except Fault β} (h : Carries f x y) :
    Moves k f (.ofExcept x) (.ofExcept y) := by
  intro a ds hx
  cases hx
  rw [h a rfl]
  rfl

theorem access {f : α → β} {x : Except BoundsError α} {y : Except BoundsError β}
    (h : Carries f x y) : Moves k f (.access x) (.access y) :=
  ofExcept (h.mapError Fault.bounds Fault.bounds)

theorem bind {f : α → β} {g : γ → δ} {x : Decoding α} {y : Decoding β} {F : α → Decoding γ}
    {G : β → Decoding δ} (h : Moves k f x y) (hF : ∀ a, Moves k g (F a) (G (f a))) :
    Moves k g (x.bind F) (y.bind G) := by
  intro c ds hc
  obtain ⟨a, ds₁, ds₂, hx, ha, rfl⟩ := bind_eq_ok_iff.mp hc
  rw [bind_eq_ok_iff]
  exact ⟨f a, _, _, h a ds₁ hx, hF a c ds₂ ha, List.map_append⟩

theorem within {f : α → β} {x : Decoding α} {y : Decoding β} (h : Moves k f x y)
    (c c' : Fault → Fault) : Moves k f (x.within c) (y.within c') := by
  obtain ⟨e | a, es⟩ := x
  · intro b ds hb
    cases hb
  · rw [h a es rfl]
    intro b ds hb
    cases hb
    rfl

/-- A choice that fails where its condition does not hold. -/
theorem ite {f : α → β} {c c' : Prop} [Decidable c] [Decidable c'] {x z : Decoding α}
    {y y' : Decoding β} (hc : c → c') (h : Moves k f x y) (hz : ∀ w, Moves k f z w) :
    Moves k f (if c then x else z) (if c' then y else y') := by
  by_cases hx : c
  · rw [if_pos hx, if_pos (hc hx)]
    exact h
  · rw [if_neg hx]
    exact hz _

end Moves

end Decoding

open Decoding (Moves)

variable (pre suf : ByteArray)

def OpenRow.inside (row : OpenRow) : OpenRow :=
  ⟨row.start.inside pre suf, row.bitmap.inside pre suf, row.fixed.inside pre suf, row.depth⟩

namespace Decoder

theorem checkDepth_inside (d : Decoder) (depth : Nat) (s : Span) :
    Carries id (d.checkDepth depth s) (d.checkDepth depth (s.inside pre suf)) :=
  .ite id (.ok id ())

theorem decodeText_inside (bytes : ByteArray) (p q : Nat) {k : Nat} :
    Moves k id (decodeText bytes p) (decodeText bytes q) := by
  refine .ofExcept (.mapError ?_ _ _)
  intro text h
  exact h

theorem readCount_inside (s : Span) :
    Moves pre.size id (readCount s) (readCount (s.inside pre suf)) := by
  refine .bind (.access (s.int_inside pre suf)) fun count => ?_
  by_cases hcount : count.toInt < 0
  · simp only [hcount, if_true]
    exact .of_fail _ _ _
  · simp only [id, hcount, if_false]
    exact .ok id _

theorem readStr_inside (s : Span) :
    Moves pre.size id (readStr s) (readStr (s.inside pre suf)) := by
  refine .bind (.access (s.descriptor_inside pre suf)) fun descriptor => ?_
  refine .bind (.access (descriptor.target_inside pre suf s)) fun target => ?_
  refine .bind (.access (target.bytes_inside pre suf _)) fun bytes => ?_
  refine .bind (decodeText_inside bytes _ _) fun text => ?_
  exact .ok id (Value.str text)

theorem readBlobAt_inside (d : Decoder) (s : Span) :
    Moves pre.size id (d.readBlobAt s) (d.readBlobAt (s.inside pre suf)) := by
  refine .bind (.access (s.descriptor_inside pre suf)) fun descriptor => ?_
  refine .bind (.access (descriptor.payload_inside pre suf s)) fun payload => ?_
  refine .ofExcept (.mapError ?_ _ _)
  intro value h
  exact h

end Decoder

namespace Dict

theorem recover_moved (p k : Nat) (x : Except Complaint Value) :
    recover (p + k) x = ((recover p x).1, (recover p x).2.map (Diagnostic.moved k)) := by
  cases x <;> rfl

theorem readEntry_moved (p k : Nat) (raw : String) (node : Json) :
    readEntry (p + k) raw node =
      ((readEntry p raw node).1, (readEntry p raw node).2.map (Diagnostic.moved k)) := by
  unfold readEntry
  split
  next => rfl
  next => simp only [recover_moved p k, List.map_append]

theorem readEntries_moved (p k : Nat) (members : List (String × Json)) :
    readEntries (p + k) members =
      ((readEntries p members).1, (readEntries p members).2.map (Diagnostic.moved k)) := by
  simp only [readEntries, readEntry_moved p k, List.foldl_map, List.flatMap_map, List.map_flatMap]

end Dict

namespace Decoder

variable (d : Decoder)

/-- A reader for which it makes no difference where in a buffer a value lies. -/
def Movable (read : Reader) : Prop :=
  ∀ (s : Span) (bit : Option NullBit) (depth : Nat),
    Moves pre.size id (read s bit depth)
      (read (s.inside pre suf) (bit.map (NullBit.inside pre suf)) depth)

theorem readDict_inside (s : Span) :
    Moves pre.size id (d.readDict s) (d.readDict (s.inside pre suf)) := by
  refine .bind (.access (s.descriptor_inside pre suf)) fun descriptor => ?_
  refine .bind (.access (descriptor.payload_inside pre suf s)) fun payload => ?_
  simp only [id]
  cases d.parseDict (Dict.stripPadding payload) with
  | none => exact .of_fail _ _ _
  | some root =>
    cases hmembers : root.entries? with
    | none =>
      simp only [hmembers]
      exact .of_fail _ _ _
    | some members =>
      intro value ds h
      simp only [hmembers] at h ⊢
      cases h
      simp only [Span.inside, Dict.readEntries_moved s.position pre.size members]
      rfl

variable {pre suf} {read : Reader}

theorem readOption_inside (h : Movable pre suf read) : Movable pre suf (readOption read) := by
  have hread (s : Span) (depth : Nat) (null : Bool) :
      Moves pre.size id (if null then .ok Value.null else read s none depth)
        (if null then .ok Value.null else read (s.inside pre suf) none depth) := by
    cases null
    · exact h s none depth
    · exact .ok id Value.null
  intro s bit depth
  cases bit with
  | some bit =>
    rw [Option.map_some, readOption_some, readOption_some]
    exact .bind (.access (bit.bitmap.isNull_inside pre suf bit.index)) (hread s depth)
  | none =>
    rw [Option.map_none, readOption_none, readOption_none]
    exact .bind (.access (NullBitmap.embedded_inside pre suf s)) fun r =>
      .bind (.access (r.1.isNull_inside pre suf 0)) (hread r.2 depth)

theorem readCells_inside {cell : Nat → Span → Decoding Value}
    (h : ∀ i s, Moves pre.size id (cell i s) (cell i (s.inside pre suf))) (n i : Nat) (s : Span) :
    Moves pre.size id (readCells cell n i s) (readCells cell n i (s.inside pre suf)) := by
  induction n generalizing i s with
  | zero => exact .ok id []
  | succ n ih =>
    refine .bind (h i s) fun item => ?_
    refine .bind (.access (s.advance_inside pre suf slotSize)) fun next => ?_
    refine .bind (ih (i + 1) next) fun items => ?_
    exact .ok id (item :: items)

theorem stringSize_inside (count regionLength i : Nat) (offset : Int) (s : Span) :
    Moves pre.size id (stringSize count regionLength i offset s)
      (stringSize count regionLength i offset (s.inside pre suf)) := by
  unfold stringSize
  by_cases hlast : i + 1 = count
  · simp only [hlast, if_true]
    refine .ite id (.bind (.ok id _) fun size? => ?_) (Moves.of_fail _ _)
    cases size? with
    | none => exact .of_fail _ _ _
    | some size => exact .ok id size
  · simp only [hlast, if_false]
    refine .bind (.access (s.wordAt_inside pre suf slotSize)) fun next => ?_
    refine .bind (.ok id _) fun size? => ?_
    cases size? with
    | none => exact .of_fail _ _ _
    | some size => exact .ok id size

theorem readListString_inside (count regionLength i : Nat) (s : Span) :
    Moves pre.size id (readListString count regionLength i s)
      (readListString count regionLength i (s.inside pre suf)) := by
  refine .bind (.access (s.int_inside pre suf)) fun offset => ?_
  refine .bind (stringSize_inside count regionLength i offset.toInt s) fun size => ?_
  by_cases hsize : size < 1
  · simp only [hsize, if_true]
    exact .of_fail _ _ _
  · simp only [id, hsize, if_false]
    refine .bind (.access (s.advanceSigned_inside pre suf offset)) fun target => ?_
    refine .bind (.access (target.bytes_inside pre suf _)) fun bytes => ?_
    refine .bind (decodeText_inside bytes _ _) fun text => ?_
    exact .ok id (Value.str text)

theorem readElement_inside (h : Movable pre suf read) (element : Schema)
    (count regionLength depth i : Nat) (s : Span) :
    Moves pre.size id (readElement element read count regionLength depth i s)
      (readElement element read count regionLength depth i (s.inside pre suf)) := by
  unfold readElement
  split
  next => exact .bind (.access (s.int_inside pre suf)) fun word => .ok id (Value.bool (word != 0))
  next => exact readListString_inside count regionLength i s
  next => exact h s none (depth + 1)

theorem readSlotList_inside (h : Movable pre suf read) (element : Schema) (s : Span)
    (depth : Nat) :
    Moves pre.size id (readSlotList element read s depth)
      (readSlotList element read (s.inside pre suf) depth) := by
  refine .bind (.access (s.descriptor_inside pre suf)) fun descriptor => ?_
  refine .bind (.access (descriptor.target_inside pre suf s)) fun region => ?_
  refine .bind (readCount_inside pre suf region) fun count => ?_
  have hroom : count * slotSize ≤ region.remaining - slotSize →
      count * slotSize ≤ (region.inside pre suf).remaining - slotSize := fun hle => by
    have hinside := region.le_remaining_inside pre suf (Nat.le_refl region.remaining)
    omega
  refine .ite hroom ?_ fun w => by split <;> exact Moves.of_fail _ _ w
  by_cases hstored : isListElement element
  · simp only [id, hstored, if_true]
    refine .bind (.access (region.advance_inside pre suf slotSize)) fun first => ?_
    have hcells := readCells_inside (readElement_inside h element count descriptor.length.toNat depth)
      count 0 first
    exact hcells.bind fun items => .ok id (Value.list items)
  · simp only [id, hstored]
    intro value ds hvalue
    cases hvalue
    rfl

theorem readZeroWidthList_inside (h : Movable pre suf read) (s : Span) (depth : Nat) :
    Moves pre.size id (d.readZeroWidthList read s depth)
      (d.readZeroWidthList read (s.inside pre suf) depth) := by
  refine .bind (readCount_inside pre suf s) fun count => ?_
  exact .ite id (.bind (h s none (depth + 1)) fun item => .ok id (Value.list _)) (Moves.of_fail _ _)

theorem readList_inside (h : Movable pre suf read) (element : Schema) (s : Span) (depth : Nat) :
    Moves pre.size id (d.readList element read s depth)
      (d.readList element read (s.inside pre suf) depth) := by
  refine .bind (.ofExcept (d.checkDepth_inside pre suf depth s)) fun _ => ?_
  by_cases hwidth : element.isZeroWidth
  · simp only [hwidth, if_true]
    exact d.readZeroWidthList_inside h s depth
  · simp only [hwidth]
    exact readSlotList_inside h element s depth

variable {d}

theorem readSlot_inside {schema : Schema} (h : Movable pre suf (d.reader schema)) (row : OpenRow)
    (path : Path) (place : Place) :
    Moves pre.size id (d.readSlot row schema path place)
      (d.readSlot (row.inside pre suf) schema path place) := by
  refine .bind (.access (row.fixed.advance_inside pre suf place.offset)) fun slot => ?_
  refine .bind ((?_ : Moves _ id _ _).within _ _) fun value => .ok id (value, place.next schema)
  by_cases hoption : schema.isOption
  · simp only [hoption, if_true]
    exact h slot (some ⟨row.bitmap, place.bit⟩) _
  · simp only [hoption]
    exact h slot none _

mutual

theorem readField_inside (row : OpenRow) (field : Schema) (path : Path) (place : Place)
    (h : ∀ leaf ∈ field.leavesAt path, Movable pre suf (d.reader leaf.schema)) :
    Moves pre.size id (d.readField row field path place)
      (d.readField (row.inside pre suf) field path place) := by
  by_cases htuple : field.isTuple
  · match field, htuple with
    | .tuple (first :: fields), _ =>
      rw [readField, readField]
      refine .bind (.ofExcept (d.checkDepth_inside pre suf _ row.start)) fun _ => ?_
      refine .bind (readFields_inside row (first :: fields) path 0 place h) fun r => ?_
      exact .ok id (Value.tuple r.1, r.2)
  · have hleaf : field.isTuple = false := by simpa using htuple
    rw [readField_of_not_isTuple hleaf, readField_of_not_isTuple hleaf]
    have hmem : (⟨path, field⟩ : Leaf) ∈ field.leavesAt path := by
      simp [Schema.leavesAt_of_not_isTuple hleaf]
    exact readSlot_inside (h _ hmem) row path place
termination_by sizeOf field

theorem readFields_inside (row : OpenRow) (fields : List Schema) (path : Path) (i : Nat)
    (place : Place)
    (h : ∀ leaf ∈ Schema.leavesFrom fields path i, Movable pre suf (d.reader leaf.schema)) :
    Moves pre.size id (d.readFields row fields path i place)
      (d.readFields (row.inside pre suf) fields path i place) := by
  match fields with
  | [] => exact .ok id ([], place)
  | field :: fields =>
    rw [readFields, readFields]
    have hfirst := readField_inside row field (path ++ [i]) place fun leaf hleaf =>
      h leaf (List.mem_append_left _ hleaf)
    refine hfirst.bind fun r => ?_
    have hrest := readFields_inside row fields path (i + 1) r.2 fun leaf hleaf =>
      h leaf (List.mem_append_right _ hleaf)
    refine hrest.bind fun t => ?_
    exact .ok id (r.1 :: t.1, t.2)
termination_by sizeOf fields

end

theorem readRecord_inside (schema : Schema) (s : Span) (depth : Nat)
    (h : ∀ leaf ∈ schema.leaves, Movable pre suf (d.reader leaf.schema)) :
    Moves pre.size id (d.readRecord schema s depth)
      (d.readRecord schema (s.inside pre suf) depth) := by
  refine .bind (.ofExcept (d.checkDepth_inside pre suf depth s)) fun _ => ?_
  refine .bind (.access (NullBitmap.ofSpan_inside pre suf s schema.bitmapWords)) fun bitmap => ?_
  refine .bind (.access (s.advance_inside pre suf bitmap.byteCount)) fun fixed => ?_
  have hfields := readFields_inside ⟨s, bitmap, fixed, depth⟩ schema.fields [] 0 ⟨0, 0⟩ h
  exact hfields.bind fun r => .ok id (Value.tuple r.1)

theorem reader_inside (schema : Schema) : Movable pre suf (d.reader schema) := by
  induction schema using Schema.rowInduction with
  | bool =>
    exact fun s _ _ => .bind (.access (s.byte_inside pre suf)) fun b => .ok id (Value.bool (b != 0))
  | int => exact fun s _ _ => .bind (.access (s.int_inside pre suf)) fun n => .ok id (Value.int n)
  | float =>
    exact fun s _ _ => .bind (.access (s.float_inside pre suf)) fun x => .ok id (Value.float x)
  | str => exact fun s _ _ => readStr_inside pre suf s
  | blob => exact fun s _ _ => readBlobAt_inside pre suf d s
  | null => exact fun _ _ _ => .ok id Value.null
  | emptyTuple | noFields => exact fun _ _ _ => .ok id Value.emptyTuple
  | emptyList => exact fun _ _ _ => .ok id Value.emptyList
  | emptyDict => exact fun _ _ _ => .ok id Value.emptyDict
  | tuple field fields ih =>
    intro s bit depth
    rw [reader_tuple, reader_tuple]
    exact readRecord_inside (.tuple (field :: fields)) s depth ih
  | list element ih =>
    intro s bit depth
    rw [reader]
    exact d.readList_inside ih element s depth
  | dict => exact fun s _ _ => readDict_inside pre suf d s
  | option inner ih =>
    rw [reader]
    exact readOption_inside ih

/-- Decoding does not depend on where a value lies in a buffer, nor on what lies around it. -/
theorem read_inside (d : Decoder) (schema : Schema) (pre data suf : ByteArray) (value : Value)
    (ds : Diagnostics) (h : d.read schema (Span.ofBytes data) none = ⟨.ok value, ds⟩) :
    d.read schema ⟨pre ++ data ++ suf, pre.size⟩ none =
      ⟨.ok value, ds.map (Diagnostic.moved pre.size)⟩ := by
  have hread : Movable pre suf (d.reader schema) := reader_inside schema
  simpa [read, Span.inside, Span.ofBytes] using hread (Span.ofBytes data) none 0 value ds h

/-- A row of one list and one text, `hi`. The list has one element, which cannot be stored. -/
def rowWithLostList : ByteArray :=
  ⟨#[16, 0, 0, 0, 16, 0, 0, 0, 24, 0, 0, 0, 3, 0, 0, 0,
    1, 0, 0, 0, 0, 0, 0, 0, 0, 0, 0, 0, 0, 0, 0, 0, 104, 105, 0]⟩

set_option maxRecDepth 4000 in
theorem read_inside_rowWithLostList :
    standard.read (.tuple [.list (.option .bool), .str]) (Span.ofBytes rowWithLostList) none =
        ⟨.ok (.tuple [.list [.null], .str "hi"]),
          [⟨.unsupportedListElement, 0, "list element type option[bool] is not supported"⟩]⟩ ∧
      standard.read (.tuple [.list (.option .bool), .str])
          ⟨⟨#[7]⟩ ++ rowWithLostList ++ ⟨#[9]⟩, 1⟩ none =
        ⟨.ok (.tuple [.list [.null], .str "hi"]),
          [⟨.unsupportedListElement, 1, "list element type option[bool] is not supported"⟩]⟩ := by
  have hread : standard.read (.tuple [.list (.option .bool), .str]) (Span.ofBytes rowWithLostList)
      none = ⟨.ok (.tuple [.list [.null], .str "hi"]),
        [⟨.unsupportedListElement, 0, "list element type option[bool] is not supported"⟩]⟩ := by
    rfl
  exact ⟨hread, read_inside standard _ ⟨#[7]⟩ rowWithLostList ⟨#[9]⟩ _ _ hread⟩

end Decoder

end RowFormat
