import RowFormat.Proofs.PlainRecursion
import Mathlib

namespace RowFormat

namespace Schema

mutual

/-- The number of containers that reading opens one inside the other: tuples with fields, and lists.
Of all elements of lists, only tuples are opened inside their list. -/
def height : Schema → Nat
  | .tuple (field :: fields) => heights (field :: fields) + 1
  | .list element => if element.isTuple then element.height + 1 else 1
  | .option inner => inner.height
  | _ => 0

def heights : List Schema → Nat
  | [] => 0
  | field :: fields => max field.height (heights fields)

end

theorem height_of_isZeroWidth {s : Schema} (h : s.isZeroWidth) : s.height = 0 := by
  cases s with
  | null | emptyTuple | emptyList | emptyDict => rfl
  | tuple fields =>
    cases fields with
    | nil => rfl
    | cons field fields => simp [isZeroWidth] at h
  | _ => simp [isZeroWidth] at h

/-- What is opened of an element is opened inside its list. -/
theorem height_lt_list {element : Schema} (h : element.isZeroWidth ∨ Decoder.isListElement element) :
    element.height < (list element).height := by
  rw [height]
  by_cases htuple : element.isTuple
  · rw [if_pos htuple]
    omega
  · rw [if_neg htuple]
    rcases h with h | h
    · rw [height_of_isZeroWidth h]
      omega
    · cases element with
      | bool | int | float | str | dict => exact Nat.one_pos
      | tuple fields =>
        cases fields with
        | nil => exact Nat.one_pos
        | cons field fields => simp [isTuple] at htuple
      | _ => simp [Decoder.isListElement] at h

end Schema

/-- Whether a limit of the decoder is the cause. -/
def Fault.isLimit : Fault → Bool
  | .tooDeep .. | .zeroWidthCount .. => true
  | .field _ _ _ cause | .row _ cause => cause.isLimit
  | _ => false

namespace Decoding

variable {α β : Type}

/-- A relation between decodings that reading keeps: it holds of a sequence if it holds of both of its
steps. -/
structure Congruence (R : (α : Type) → Decoding α → Decoding α → Prop) : Prop where
  refl {α : Type} (x : Decoding α) : R α x x
  bind {α β : Type} {x y : Decoding α} {f g : α → Decoding β} (h : R α x y)
    (hrest : ∀ a, R β (f a) (g a)) : R β (x.bind f) (y.bind g)
  field {x y : Decoding Value} (h : R Value x y) (path : Path) (schema : Schema) (position : Nat) :
    R Value (x.within (Fault.field path schema position)) (y.within (Fault.field path schema position))

/-- The decoding fails by a limit of its decoder. -/
def IsCut (x : Decoding α) : Prop := ∃ e ds, x = ⟨.error e, ds⟩ ∧ e.isLimit = true

/-- Two decodings that are the same, unless the first is cut off by a limit. -/
def EqUnlessCut (α : Type) (x y : Decoding α) : Prop := x = y ∨ x.IsCut

theorem IsCut.bind {x : Decoding α} (h : x.IsCut) (f : α → Decoding β) : (x.bind f).IsCut := by
  obtain ⟨e, ds, rfl, he⟩ := h
  exact ⟨e, ds, rfl, he⟩

theorem IsCut.of_rest {a : α} {ds : Diagnostics} {f : α → Decoding β} (h : (f a).IsCut) :
    (Decoding.bind ⟨.ok a, ds⟩ f).IsCut := by
  obtain ⟨e, es, hf, he⟩ := h
  refine ⟨e, ds ++ es, ?_, he⟩
  simp only [Decoding.bind, hf]

theorem congruence_eq : Congruence fun α (x y : Decoding α) => x = y where
  refl _ := rfl
  bind h hrest := by rw [h, funext hrest]
  field h path schema position := by rw [h]

theorem congruence_eqUnlessCut : Congruence EqUnlessCut where
  refl _ := .inl rfl
  bind {α β x y f g} h hrest := by
    rcases h with rfl | h
    · obtain ⟨e | a, ds⟩ := x
      · exact .inl rfl
      · rcases hrest a with hsame | hcut
        · left
          simp only [Decoding.bind, hsame]
        · exact .inr hcut.of_rest
    · exact .inr (h.bind f)
  field {x y} h path schema position := by
    rcases h with rfl | ⟨e, ds, rfl, he⟩
    · exact .inl rfl
    · exact .inr ⟨.field path schema position e, ds, rfl, he⟩

end Decoding

namespace Decoder

open Decoding (Congruence EqUnlessCut IsCut)

variable {R : (α : Type) → Decoding α → Decoding α → Prop} {limit : Nat} {d e : Decoder}

/-- Two decoders that read payloads alike. Where they check their limits, inside fewer containers than
some number, they lead to related outcomes. -/
structure Akin (R : (α : Type) → Decoding α → Decoding α → Prop) (limit : Nat) (d e : Decoder) :
    Prop where
  checkDepth {depth : Nat} (h : depth < limit) (span : Span) :
    R Unit (.ofExcept (d.checkDepth depth span)) (.ofExcept (e.checkDepth depth span))
  checkCount {x y : Decoding Value} (h : R Value x y) (count position : Nat) :
    R Value
      (if count ≤ d.maxZeroWidthLength then x
        else .fail (.zeroWidthCount count position d.maxZeroWidthLength))
      (if count ≤ e.maxZeroWidthLength then y
        else .fail (.zeroWidthCount count position e.maxZeroWidthLength))
  parseDict : d.parseDict = e.parseDict
  readBlob : d.readBlob = e.readBlob

/-- Two readers that lead to related outcomes wherever the schema that they read has room for all its
containers. -/
def Matched (R : (α : Type) → Decoding α → Decoding α → Prop) (limit height : Nat)
    (read read' : Reader) : Prop :=
  ∀ span bit depth, depth + height ≤ limit → R Value (read span bit depth) (read' span bit depth)

variable (hR : Congruence R)

include hR

theorem readOption_matched {read read' : Reader} {height : Nat} (h : Matched R limit height read read') :
    Matched R limit height (readOption read) (readOption read') := by
  have hnullable (null : Bool) (payload : Span) (depth : Nat) (hdepth : depth + height ≤ limit) :
      R Value (if null then .ok .null else read payload none depth)
        (if null then .ok .null else read' payload none depth) := by
    cases null with
    | true => exact hR.refl _
    | false => exact h payload none depth hdepth
  intro span bit depth hdepth
  cases bit with
  | none =>
    rw [readOption_none, readOption_none]
    exact hR.bind (hR.refl _) fun r => hR.bind (hR.refl _) fun null => hnullable null r.2 depth hdepth
  | some bit =>
    rw [readOption_some, readOption_some]
    exact hR.bind (hR.refl _) fun null => hnullable null span depth hdepth

theorem readCells_related {read read' : Nat → Span → Decoding Value}
    (h : ∀ i cell, R Value (read i cell) (read' i cell)) (n i : Nat) (cell : Span) :
    R (List Value) (readCells read n i cell) (readCells read' n i cell) := by
  induction n generalizing i cell with
  | zero => exact hR.refl _
  | succ n ih =>
    refine hR.bind (h i cell) fun item => hR.bind (hR.refl _) fun next => ?_
    exact hR.bind (ih (i + 1) next) fun items => hR.refl _

theorem readElement_related (element : Schema) {read read' : Reader} {depth : Nat}
    (h : ∀ cell, R Value (read cell none (depth + 1)) (read' cell none (depth + 1)))
    (count regionLength i : Nat) (cell : Span) :
    R Value (readElement element read count regionLength depth i cell)
      (readElement element read' count regionLength depth i cell) := by
  unfold readElement
  split
  next => exact hR.refl _
  next => exact hR.refl _
  next => exact h cell

theorem readSlotList_related {element : Schema} {read read' : Reader} {depth : Nat}
    (h : isListElement element →
      ∀ cell, R Value (read cell none (depth + 1)) (read' cell none (depth + 1))) (span : Span) :
    R Value (readSlotList element read span depth) (readSlotList element read' span depth) := by
  refine hR.bind (hR.refl _) fun descriptor => hR.bind (hR.refl _) fun region => ?_
  refine hR.bind (hR.refl _) fun count => ?_
  split
  next =>
    split
    next hstored =>
      refine hR.bind (hR.refl _) fun first => ?_
      have helement := readElement_related hR element (h hstored) count descriptor.length.toNat
      exact hR.bind (readCells_related hR helement count 0 first) fun items => hR.refl _
    next => exact hR.refl _
  next => exact hR.refl _

theorem readList_matched (h : Akin R limit d e) {element : Schema}
    (helement : Matched R limit element.height (d.reader element) (e.reader element)) (span : Span)
    (depth : Nat) (hdepth : depth + (Schema.list element).height ≤ limit) :
    R Value (d.readList element (d.reader element) span depth)
      (e.readList element (e.reader element) span depth) := by
  have hopen : 0 < (Schema.list element).height := by
    rw [Schema.height]
    split <;> omega
  have hitem (hread : element.isZeroWidth ∨ isListElement element) (cell : Span) :
      R Value (d.reader element cell none (depth + 1)) (e.reader element cell none (depth + 1)) := by
    have hlt := Schema.height_lt_list hread
    exact helement cell none (depth + 1) (by omega)
  refine hR.bind (h.checkDepth (by omega) span) fun _ => ?_
  split
  next hwidth =>
    refine hR.bind (hR.refl _) fun count => h.checkCount ?_ count span.position
    exact hR.bind (hitem (.inl hwidth) span) fun item => hR.refl _
  next => exact readSlotList_related hR (fun hstored => hitem (.inr hstored)) span

theorem readLeafBehind_related {schema : Schema}
    (h : Matched R limit schema.height (d.reader schema) (e.reader schema)) (row : OpenRow)
    (before : List Leaf) (path : Path) (hdepth : row.depth + path.length + schema.height ≤ limit) :
    R Value (d.readLeafBehind row before schema path) (e.readLeafBehind row before schema path) := by
  refine hR.bind (hR.refl _) fun slot => hR.field ?_ path schema slot.position
  exact h slot _ (row.depth + path.length) hdepth

mutual

theorem readFieldBehind_related (h : Akin R limit d e) (row : OpenRow) (before : List Leaf)
    (field : Schema) (path : Path)
    (hleaves : ∀ leaf ∈ field.leavesAt path,
      Matched R limit leaf.schema.height (d.reader leaf.schema) (e.reader leaf.schema))
    (hdepth : row.depth + path.length + field.height ≤ limit) :
    R Value (d.readFieldBehind row before field path) (e.readFieldBehind row before field path) := by
  by_cases htuple : field.isTuple
  · match field, htuple with
    | .tuple (first :: fields), _ =>
      rw [Schema.height] at hdepth
      rw [readFieldBehind, readFieldBehind]
      refine hR.bind (h.checkDepth (by omega) row.start) fun _ => ?_
      have hfields := readFieldsBehind_related h row before (first :: fields) path 0 hleaves (by omega)
      exact hR.bind hfields fun items => hR.refl _
  · have hleaf : field.isTuple = false := by simpa using htuple
    rw [Schema.leavesAt_of_not_isTuple hleaf] at hleaves
    rw [readFieldBehind_of_not_isTuple hleaf, readFieldBehind_of_not_isTuple hleaf]
    exact readLeafBehind_related hR (hleaves _ List.mem_cons_self) row before path hdepth
termination_by sizeOf field

theorem readFieldsBehind_related (h : Akin R limit d e) (row : OpenRow) (before : List Leaf)
    (fields : List Schema) (path : Path) (i : Nat)
    (hleaves : ∀ leaf ∈ Schema.leavesFrom fields path i,
      Matched R limit leaf.schema.height (d.reader leaf.schema) (e.reader leaf.schema))
    (hdepth : row.depth + path.length + 1 + Schema.heights fields ≤ limit) :
    R (List Value) (d.readFieldsBehind row before fields path i)
      (e.readFieldsBehind row before fields path i) := by
  match fields with
  | [] => exact hR.refl _
  | field :: fields =>
    rw [Schema.leavesFrom] at hleaves
    rw [Schema.heights] at hdepth
    rw [readFieldsBehind, readFieldsBehind]
    have hlength : (path ++ [i]).length = path.length + 1 := by simp
    have hfirst := readFieldBehind_related h row before field (path ++ [i])
      (fun leaf hleaf => hleaves leaf (List.mem_append_left _ hleaf)) (by omega)
    have hrest := readFieldsBehind_related h row (before ++ field.leavesAt (path ++ [i])) fields path
      (i + 1) (fun leaf hleaf => hleaves leaf (List.mem_append_right _ hleaf)) (by omega)
    exact hR.bind hfirst fun item => hR.bind hrest fun items => hR.refl _
termination_by sizeOf fields

end

/-- Readers lead to related outcomes if the checks of their decoders' limits do. -/
theorem reader_matched (h : Akin R limit d e) (schema : Schema) :
    Matched R limit schema.height (d.reader schema) (e.reader schema) := by
  induction schema using Schema.rowInduction with
  | bool | int | float | str | null | emptyTuple | emptyList | emptyDict | noFields =>
    exact fun _ _ _ _ => hR.refl _
  | blob =>
    intro span bit depth _
    simp only [reader, readBlobAt, h.readBlob]
    exact hR.refl _
  | dict =>
    intro span bit depth _
    simp only [reader, readDict, h.parseDict]
    exact hR.refl _
  | tuple field fields ih =>
    intro span bit depth hdepth
    rw [Schema.height] at hdepth
    rw [reader_eq_readNested, reader_eq_readNested]
    refine hR.bind (h.checkDepth (by omega) span) fun _ => hR.bind (hR.refl _) fun bitmap => ?_
    refine hR.bind (hR.refl _) fun fixed => ?_
    have hfields := readFieldsBehind_related hR h ⟨span, bitmap, fixed, depth⟩ [] (field :: fields) []
      0 ih (by simp only [List.length_nil]; omega)
    exact hR.bind hfields fun items => hR.refl _
  | list element ih =>
    intro span bit depth hdepth
    rw [reader, reader]
    exact readList_matched hR h ih span depth hdepth
  | option inner ih =>
    rw [reader, reader]
    exact readOption_matched hR ih

omit hR

/-- The same decoder with other limits. -/
def withLimits (d : Decoder) (depth zeroWidthLength : Nat) : Decoder :=
  { d with maxDepth := depth, maxZeroWidthLength := zeroWidthLength }

/-- Higher limits make a difference only where a lower one is met. -/
theorem akin_of_le (d : Decoder) {m n z w : Nat} (hdepth : m ≤ n) (hcount : z ≤ w) (limit : Nat) :
    Akin EqUnlessCut limit (d.withLimits m z) (d.withLimits n w) where
  checkDepth {depth} _ span := by
    by_cases hroom : depth < m
    · left
      simp only [Decoder.checkDepth, withLimits, hroom, show depth < n by omega, if_true]
    · right
      simp only [Decoder.checkDepth, withLimits, hroom, if_false]
      exact ⟨_, [], rfl, rfl⟩
  checkCount {x y} h count position := by
    by_cases hroom : count ≤ z
    · simp only [withLimits, hroom, show count ≤ w by omega, if_true]
      exact h
    · right
      simp only [withLimits, hroom, if_false]
      exact ⟨_, [], rfl, rfl⟩
  parseDict := rfl
  readBlob := rfl

/-- Limits on the depth that are not met make no difference at all. -/
theorem akin_of_room (d : Decoder) {m n limit : Nat} (hm : limit ≤ m) (hn : limit ≤ n) (z : Nat) :
    Akin (fun α (x y : Decoding α) => x = y) limit (d.withLimits m z) (d.withLimits n z) where
  checkDepth {depth} h span := by
    simp only [Decoder.checkDepth, withLimits, show depth < m by omega, show depth < n by omega,
      if_true]
  checkCount {x y} h count position := by
    subst h
    rfl
  parseDict := rfl
  readBlob := rfl

/-- Higher limits leave every value as it is, with its diagnostics, and every fault but that of a limit.
And all limits on the depth that leave room for the containers of the schema lead to the same outcome,
whatever it is. -/
theorem read_withLimits (d : Decoder) (schema : Schema) (span : Span) (bit : Option NullBit)
    (m n z w : Nat) :
    (m ≤ n → z ≤ w →
      (∀ value ds, (d.withLimits m z).read schema span bit = ⟨.ok value, ds⟩ →
        (d.withLimits n w).read schema span bit = ⟨.ok value, ds⟩) ∧
      ∀ fault ds, (d.withLimits m z).read schema span bit = ⟨.error fault, ds⟩ →
        fault.isLimit = false → (d.withLimits n w).read schema span bit = ⟨.error fault, ds⟩) ∧
    (schema.height ≤ m → schema.height ≤ n →
      (d.withLimits m z).read schema span bit = (d.withLimits n z).read schema span bit) := by
  constructor
  · intro hdepth hcount
    have hread : EqUnlessCut Value ((d.withLimits m z).read schema span bit)
        ((d.withLimits n w).read schema span bit) :=
      reader_matched Decoding.congruence_eqUnlessCut (akin_of_le d hdepth hcount (0 + schema.height))
        schema span bit 0 (Nat.le_refl _)
    rcases hread with hsame | ⟨e, es, hcut, he⟩
    · rw [hsame]
      exact ⟨fun _ _ h => h, fun _ _ h _ => h⟩
    · rw [hcut]
      constructor
      · intro value ds h
        cases h
      · intro fault ds h hfault
        cases h
        rw [he] at hfault
        cases hfault
  · intro hm hn
    exact reader_matched Decoding.congruence_eq (akin_of_room d hm hn z) schema span bit 0
      (Nat.le_of_eq (Nat.zero_add _))

/-- A row of a nullable tuple, which holds a number and a list of one tuple that holds a list of two
nulls. -/
def nestedLists : ByteArray :=
  ⟨#[0, 0, 0, 0, 0, 0, 0, 0, 5, 0, 0, 0, 0, 0, 0, 0, 8, 0, 0, 0, 16, 0, 0, 0,
    1, 0, 0, 0, 0, 0, 0, 0, 2, 0, 0, 0, 0, 0, 0, 0]⟩

def nestedSchema : Schema := .tuple [.option (.tuple [.int, .list (.tuple [.list .null])])]

def nestedValue : Value := .tuple [.tuple [.int 5, .list [.tuple [.list [.null, .null]]]]]

theorem read_withLimits_nestedLists :
    nestedSchema.height = 5 ∧
      (∃ fault, (standard.withLimits 4 2).read nestedSchema (Span.ofBytes nestedLists) none =
        ⟨.error fault, []⟩ ∧ fault.isLimit = true) ∧
      (standard.withLimits 5 2).read nestedSchema (Span.ofBytes nestedLists) none =
        ⟨.ok nestedValue, []⟩ ∧
      (standard.withLimits 7 9).read nestedSchema (Span.ofBytes nestedLists) none =
        ⟨.ok nestedValue, []⟩ ∧
      (standard.withLimits 5 1).read nestedSchema (Span.ofBytes nestedLists) none =
        (standard.withLimits 6 1).read nestedSchema (Span.ofBytes nestedLists) none := by
  have hread : (standard.withLimits 5 2).read nestedSchema (Span.ofBytes nestedLists) none =
      ⟨.ok nestedValue, []⟩ := by cbv
  have hraised := (read_withLimits standard nestedSchema (Span.ofBytes nestedLists) none 5 7 2 9).1
    (by decide) (by decide)
  have hroom := (read_withLimits standard nestedSchema (Span.ofBytes nestedLists) none 5 6 1 1).2
    (by decide) (by decide)
  exact ⟨rfl, ⟨_, by cbv, rfl⟩, hread, hraised.1 nestedValue [] hread, hroom⟩

end Decoder

end RowFormat
