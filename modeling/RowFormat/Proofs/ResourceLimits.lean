import RowFormat.Proofs.ReaderInvariant
import Mathlib

namespace RowFormat

namespace Value

mutual

/-- The number of containers around the innermost item. Dicts and empty containers do not count. -/
def depth : Value → Nat
  | .tuple (item :: items) | .list (item :: items) => depths (item :: items) + 1
  | _ => 0

def depths : List Value → Nat
  | [] => 0
  | item :: items => max item.depth (depths items)

end

theorem depths_le_iff {items : List Value} {n : Nat} :
    depths items ≤ n ↔ ∀ item ∈ items, item.depth ≤ n := by
  induction items with
  | nil => simp [depths]
  | cons item items ih => rw [depths, Nat.max_le, ih, List.forall_mem_cons]

theorem depth_eq_zero_of_isFlat {value : Value} (h : value.IsFlat) : value.depth = 0 := by
  cases value with
  | tuple items | list items =>
    obtain rfl : items = [] := h
    rfl
  | _ => rfl

theorem depths_le_of_forall₂ {fields : List Schema} {items : List Value} {n : Nat}
    (h : List.Forall₂ (fun _ item => item.depth ≤ n) fields items) : depths items ≤ n := by
  induction h with
  | nil => exact Nat.zero_le n
  | cons hitem _ ih => exact Nat.max_le.mpr ⟨hitem, ih⟩

/-- A container is one level deeper than its items. -/
theorem depth_le_sub {items : List Value} {limit depth : Nat} (hdepth : depth < limit)
    (h : depths items ≤ limit - (depth + 1)) :
    (tuple items).depth ≤ limit - depth ∧ (list items).depth ≤ limit - depth := by
  cases items with
  | nil => exact ⟨Nat.zero_le _, Nat.zero_le _⟩
  | cons item items =>
    simp only [Value.depth]
    omega

/-- Every list inside the value of a schema is as short as a decoder allows, in a buffer of some
size. Nothing but the items of a list or a tuple, and the value of an option, has lists inside. -/
inductive ListsFit (d : Decoder) (size : Nat) : Schema → Value → Prop
  | flat {schema : Schema} {value : Value} (h : value.IsFlat) : ListsFit d size schema value
  | tuple {fields : List Schema} {items : List Value} (h : List.Forall₂ (ListsFit d size) fields items) :
      ListsFit d size (.tuple fields) (.tuple items)
  | list {element : Schema} {items : List Value} (hcount : d.Allows size element items.length)
      (h : ∀ item ∈ items, ListsFit d size element item) : ListsFit d size (.list element) (.list items)
  | option {inner : Schema} {value : Value} (h : ListsFit d size inner value) :
      ListsFit d size (.option inner) value

end Value

namespace Decoder

/-- A value that was read inside a number of containers goes beyond no limit of the decoder. -/
structure WithinLimits (d : Decoder) (size depth : Nat) (schema : Schema) (value : Value) : Prop where
  depth_le : value.depth ≤ d.maxDepth - depth
  lists : value.ListsFit d size schema

theorem WithinLimits.of_items {d : Decoder} {size depth : Nat} {element : Schema} {items : List Value}
    (hdepth : depth < d.maxDepth) (hcount : d.Allows size element items.length)
    (h : ∀ item ∈ items, d.WithinLimits size (depth + 1) element item) :
    d.WithinLimits size depth (.list element) (.list items) := by
  have hitems := Value.depths_le_iff.mpr fun item hitem => (h item hitem).depth_le
  exact ⟨(Value.depth_le_sub hdepth hitems).2, .list hcount fun item hitem => (h item hitem).lists⟩

theorem keeps_withinLimits {d : Decoder} (hblob : d.readBlob = keepBlob) (size : Nat) :
    d.Keeps size True (d.WithinLimits size) where
  bare h := ⟨Value.depth_eq_zero_of_isFlat h.isFlat ▸ Nat.zero_le _, .flat h.isFlat⟩
  blob h := by
    rw [hblob] at h
    cases h
    exact ⟨Nat.zero_le _, .flat trivial⟩
  tuple hdepth h := by
    have hitems := Value.depths_le_of_forall₂ (h.imp fun _ _ hfield => hfield.depth_le)
    exact ⟨(Value.depth_le_sub hdepth hitems).1, .tuple (h.imp fun _ _ hfield => hfield.lists)⟩
  list hdepth hcount h := .of_items hdepth hcount h
  lostList hdepth _ _ _ hcount := by
    refine .of_items hdepth (List.length_replicate.symm ▸ hcount) fun item hitem => ?_
    rw [List.eq_of_mem_replicate hitem]
    exact ⟨Nat.zero_le _, .flat trivial⟩
  some h := ⟨h.depth_le, .option h.lists⟩

/-- A decoded value is nested no deeper than the decoder allows. A list without stored elements is
no longer than it allows, and any other list lies in the buffer, as long as it is. -/
theorem read_withinLimits (d : Decoder) (hblob : d.readBlob = keepBlob) (schema : Schema) (span : Span)
    (bit : Option NullBit) (value : Value) (ds : Diagnostics)
    (h : d.read schema span bit = ⟨.ok value, ds⟩) :
    value.depth ≤ d.maxDepth ∧ value.ListsFit d span.data.size schema := by
  have hread := reader_regular (keeps_withinLimits hblob span.data.size) schema span bit 0 rfl
  have hlimits := hread.result h fun _ => trivial
  exact ⟨hlimits.depth_le, hlimits.lists⟩

/-- A row of a list of two numbers and a nullable list of two nulls. -/
def rowOfLists : ByteArray :=
  ⟨#[0, 0, 0, 0, 0, 0, 0, 0, 16, 0, 0, 0, 24, 0, 0, 0, 2, 0, 0, 0, 0, 0, 0, 0,
    2, 0, 0, 0, 0, 0, 0, 0, 5, 0, 0, 0, 0, 0, 0, 0, 6, 0, 0, 0, 0, 0, 0, 0]⟩

/-- Limits that leave no room beyond two levels and two elements. -/
def tight : Decoder := { standard with maxDepth := 2, maxZeroWidthLength := 2 }

theorem read_withinLimits_rowOfLists :
    tight.read (.tuple [.list .int, .option (.list .null)]) (Span.ofBytes rowOfLists) none =
        ⟨.ok (.tuple [.list [.int 5, .int 6], .list [.null, .null]]), []⟩ ∧
      (Value.tuple [.list [.int 5, .int 6], .list [.null, .null]]).depth ≤ 2 ∧
      (Value.tuple [.list [.int 5, .int 6], .list [.null, .null]]).ListsFit tight rowOfLists.size
        (.tuple [.list .int, .option (.list .null)]) := by
  have hread : tight.read (.tuple [.list .int, .option (.list .null)]) (Span.ofBytes rowOfLists) none =
      ⟨.ok (.tuple [.list [.int 5, .int 6], .list [.null, .null]]), []⟩ := by cbv
  exact ⟨hread, read_withinLimits tight rfl _ _ none _ [] hread⟩

end Decoder

end RowFormat
