import RowFormat.Proofs.ReaderInvariant

namespace RowFormat

/-- The value has the shape of the schema. If nothing was lost, it has no nulls but those that the
schema allows. -/
inductive Conforms (lossy : Prop) : Schema → Value → Prop
  | bool (b : Bool) : Conforms lossy .bool (.bool b)
  | int (n : Int64) : Conforms lossy .int (.int n)
  | float (x : Binary64) : Conforms lossy .float (.float x)
  | str (text : String) : Conforms lossy .str (.str text)
  | blob (bytes : ByteArray) : Conforms lossy .blob (.blob bytes)
  | null : Conforms lossy .null .null
  | emptyTuple : Conforms lossy .emptyTuple (.tuple [])
  | emptyList : Conforms lossy .emptyList (.list [])
  | emptyDict : Conforms lossy .emptyDict (.dict [])
  | tuple {fields : List Schema} {items : List Value}
      (h : List.Forall₂ (Conforms lossy) fields items) : Conforms lossy (.tuple fields) (.tuple items)
  | list {element : Schema} {items : List Value} (h : ∀ item ∈ items, Conforms lossy element item) :
      Conforms lossy (.list element) (.list items)
  | lostList {element : Schema} (hlossy : lossy) (hstored : Decoder.isListElement element = false)
      (hwidth : element.isZeroWidth = false) (count : Nat) :
      Conforms lossy (.list element) (.list (List.replicate count .null))
  | dict {entries : List (Value × Value)}
      (halves : ∀ e ∈ entries, e.1.IsHalf lossy ∧ e.2.IsHalf lossy)
      (keys : entries.Pairwise fun e f => (e.1 == f.1) = false ∧ (f.1 == e.1) = false) :
      Conforms lossy .dict (.dict entries)
  | none (inner : Schema) : Conforms lossy (.option inner) .null
  | some {inner : Schema} {value : Value} (h : Conforms lossy inner value) :
      Conforms lossy (.option inner) value

namespace Decoder

theorem keeps_conforms {d : Decoder} {lossy : Prop} (hblob : d.readBlob = keepBlob) (size : Nat) :
    d.Keeps size lossy fun _ => Conforms lossy where
  bare h := by
    cases h with
    | bool b => exact .bool b
    | int n => exact .int n
    | float x => exact .float x
    | str text => exact .str text
    | null => exact .null
    | emptyTuple => exact .emptyTuple
    | emptyList => exact .emptyList
    | emptyDict => exact .emptyDict
    | noFields => exact .tuple .nil
    | dict halves keys => exact .dict halves keys
    | none inner => exact .none inner
  blob h := by
    rw [hblob] at h
    cases h
    exact .blob _
  tuple _ h := .tuple h
  list _ _ h := .list h
  lostList _ hlossy hstored hwidth _ := .lostList hlossy hstored hwidth _
  some h := .some h

/-- Decoded values have the shape of their schema. If there was nothing to report, no null stands
in for something that was lost. -/
theorem read_conforms (d : Decoder) (hblob : d.readBlob = keepBlob) (schema : Schema) (span : Span)
    (value : Value) (ds : Diagnostics) (h : d.read schema span none = ⟨.ok value, ds⟩) :
    Conforms True schema value ∧ (ds = [] → Conforms False schema value) := by
  have hread (lossy : Prop) : Keeping span.data.size lossy _ (d.reader schema) :=
    reader_regular (keeps_conforms hblob _) schema
  constructor
  · exact (hread True span none 0 rfl).result h fun _ => trivial
  · intro hnil
    exact (hread False span none 0 rfl).result h fun hne => hne hnil

/-- A row of an optional number, which is null, and a tuple of a text and a truth value. -/
def rowWithNull : ByteArray :=
  ⟨#[1, 0, 0, 0, 0, 0, 0, 0, 7, 7, 7, 7, 7, 7, 7, 7, 24, 0, 0, 0, 3, 0, 0, 0,
    1, 0, 0, 0, 0, 0, 0, 0, 3, 0, 0, 0, 0, 0, 0, 0, 104, 105, 0]⟩

set_option maxRecDepth 4000 in
theorem read_conforms_rowWithNull :
    standard.read (.tuple [.option .int, .tuple [.str, .bool]]) (Span.ofBytes rowWithNull) none =
        ⟨.ok (.tuple [.null, .tuple [.str "hi", .bool true]]), []⟩ ∧
      Conforms False (.tuple [.option .int, .tuple [.str, .bool]])
        (.tuple [.null, .tuple [.str "hi", .bool true]]) := by
  have hread : standard.read (.tuple [.option .int, .tuple [.str, .bool]])
      (Span.ofBytes rowWithNull) none =
        ⟨.ok (.tuple [.null, .tuple [.str "hi", .bool true]]), []⟩ := by
    rfl
  exact ⟨hread, (read_conforms standard rfl _ _ _ _ hread).2 rfl⟩

end Decoder

end RowFormat
