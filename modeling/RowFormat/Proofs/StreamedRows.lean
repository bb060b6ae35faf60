import RowFormat.Proofs.Bytes
import RowFormat.Proofs.SizedRows

namespace RowFormat

/-- The stream after a number of steps. -/
def RowStream.after (s : RowStream) : Nat → RowStream
  | 0 => s
  | n + 1 => s.next.2.after n

/-- A row with what a decoder makes of its bytes. -/
structure StoredRow where
  bytes : ByteArray
  value : Value
  diagnostics : Diagnostics

/-- The row takes all of its bytes, and they are read without a fault. -/
structure StoredRow.IsRead (r : StoredRow) (d : Decoder) (schema : Schema) : Prop where
  nonempty : 0 < r.bytes.size
  sized : schema.rowSize? r.bytes r.bytes.size = some r.bytes.size
  read : d.readRow r.bytes schema = ⟨.ok r.value, r.diagnostics⟩

variable {d : Decoder} {schema : Schema}

namespace StoredRow

theorem IsRead.readSized_append {r : StoredRow} (h : r.IsRead d schema) (suf : ByteArray) :
    d.readSized (r.bytes ++ suf) (r.bytes ++ suf).size schema =
      ⟨.ok (r.value, r.bytes.size), r.diagnostics⟩ :=
  Decoder.readSized_append (Decoder.readSized_all_eq_ok_iff.mpr ⟨h.sized, h.read⟩) suf

end StoredRow

namespace RowStream

theorem rest_append (before rest : ByteArray) (done : Bool) (ds : Diagnostics) :
    (⟨d, before ++ rest, schema, before.size, done, ds⟩ : RowStream).rest = rest :=
  ByteArray.extract_append_eq_right rfl ByteArray.size_append

theorem next_of_isRead {r : StoredRow} (h : r.IsRead d schema) (before suf : ByteArray)
    (ds : Diagnostics) :
    (⟨d, before ++ (r.bytes ++ suf), schema, before.size, false, ds⟩ : RowStream).next =
      (some (.ok r.value),
        ⟨d, before ++ (r.bytes ++ suf), schema, before.size + r.bytes.size, false,
          ds ++ r.diagnostics⟩) := by
  have hpos := h.nonempty
  have hopen : ¬(before ++ (r.bytes ++ suf)).size ≤ before.size := by
    simp only [ByteArray.size_append]
    omega
  have hwidth : ¬r.bytes.size = 0 := Nat.ne_of_gt hpos
  simp only [next, Bool.false_or, decide_eq_true_eq, if_neg hopen, rest_append,
    h.readSized_append suf, if_neg hwidth]

theorem next_of_end (data : ByteArray) (done : Bool) (ds : Diagnostics) :
    (⟨d, data, schema, data.size, done, ds⟩ : RowStream).next =
      (none, ⟨d, data, schema, data.size, done, ds⟩) := by
  simp [next]

theorem after_of_end (data : ByteArray) (done : Bool) (ds : Diagnostics) (n : Nat) :
    (⟨d, data, schema, data.size, done, ds⟩ : RowStream).after n =
      ⟨d, data, schema, data.size, done, ds⟩ := by
  induction n with
  | zero => rfl
  | succ n ih => rw [after, next_of_end, ih]

/-- The stream behind `before`, with rows ahead that are all read, after `n` steps. -/
theorem after_joined {rows : List StoredRow} (h : ∀ r ∈ rows, r.IsRead d schema)
    (before : ByteArray) (ds : Diagnostics) (n : Nat) :
    let data := before ++ joined (rows.map StoredRow.bytes)
    let s := (⟨d, data, schema, before.size, false, ds⟩ : RowStream).after n
    s = ⟨d, data, schema, before.size + ((rows.take n).map fun r => r.bytes.size).sum, false,
        ds ++ (rows.take n).flatMap StoredRow.diagnostics⟩ ∧
      s.next.1 = rows[n]?.map fun r => .ok r.value := by
  -- A step moves the first row over to what lies before.
  induction rows generalizing before ds n with
  | nil =>
    simp only [List.map_nil, joined, ByteArray.append_empty, after_of_end, next_of_end]
    simp
  | cons r rows ih =>
    have hr := h r List.mem_cons_self
    simp only [List.map_cons, joined]
    cases n with
    | zero => simp [after, next_of_isRead hr]
    | succ n =>
      have hih := ih (fun t ht => h t (List.mem_cons_of_mem r ht)) (before ++ r.bytes)
        (ds ++ r.diagnostics) n
      simp only [ByteArray.append_assoc, ByteArray.size_append] at hih
      simp only [after, next_of_isRead hr, List.take_succ_cons, List.map_cons, List.sum_cons,
        List.flatMap_cons, List.getElem?_cons_succ, ← Nat.add_assoc, ← List.append_assoc]
      exact hih

/-- A buffer of rows that are complete on their own yields the value of each in turn and nothing
more. After `n` steps the stream stands behind the first `n` rows and has collected their
diagnostics. -/
theorem after_ofBytes_joined (d : Decoder) (schema : Schema) (rows : List StoredRow)
    (h : ∀ r ∈ rows, r.IsRead d schema) (n : Nat) :
    let s := (ofBytes d (joined (rows.map StoredRow.bytes)) schema).after n
    s.next.1 = rows[n]?.map (fun r => .ok r.value) ∧
      s.offset = ((rows.take n).map fun r => r.bytes.size).sum ∧
      s.diagnostics = (rows.take n).flatMap StoredRow.diagnostics := by
  have hrun := after_joined h ByteArray.empty [] n
  simp only [ByteArray.empty_append, ByteArray.size_empty] at hrun
  obtain ⟨hstate, hnext⟩ := hrun
  refine ⟨hnext, ?_, ?_⟩
  · simp [ofBytes, hstate]
  · simp [ofBytes, hstate]

/-- Rows of one list of optional truth values, which cannot be stored there. The first list has one
element and the second has none. -/
def lostListRows : List StoredRow :=
  [⟨⟨#[16, 0, 0, 0, 16, 0, 0, 0, 16, 0, 0, 0, 0, 0, 0, 0,
      1, 0, 0, 0, 0, 0, 0, 0, 0, 0, 0, 0, 0, 0, 0, 0]⟩, .tuple [.list [.null]],
      [⟨.unsupportedListElement, 0, "list element type option[bool] is not supported"⟩]⟩,
    ⟨⟨#[16, 0, 0, 0, 8, 0, 0, 0, 8, 0, 0, 0, 0, 0, 0, 0, 0, 0, 0, 0, 0, 0, 0, 0]⟩,
      .tuple [.list []],
      [⟨.unsupportedListElement, 0, "list element type option[bool] is not supported"⟩]⟩]

set_option maxRecDepth 4000 in
theorem after_ofBytes_joined_lostListRows :
    (∀ r ∈ lostListRows, r.IsRead .standard (.tuple [.list (.option .bool)])) ∧
      let s := (ofBytes .standard (joined (lostListRows.map StoredRow.bytes))
        (.tuple [.list (.option .bool)])).after 1
      s.next.1 = some (.ok (.tuple [.list []])) ∧ s.offset = 32 ∧
        s.diagnostics =
          [⟨.unsupportedListElement, 0, "list element type option[bool] is not supported"⟩] := by
  have hrows : ∀ r ∈ lostListRows, r.IsRead .standard (.tuple [.list (.option .bool)]) := by
    intro r hr
    simp only [lostListRows, List.mem_cons, List.not_mem_nil, or_false] at hr
    rcases hr with rfl | rfl
    · exact ⟨by decide, by rfl, by rfl⟩
    · exact ⟨by decide, by rfl, by rfl⟩
  exact ⟨hrows, after_ofBytes_joined .standard (.tuple [.list (.option .bool)]) lostListRows hrows 1⟩

end RowStream

end RowFormat
