import RowFormat.Decoder.Row

namespace RowFormat

namespace Schema

theorem leavesAt_of_not_isTuple {s : Schema} (h : s.isTuple = false) (path : Path) :
    s.leavesAt path = [⟨path, s⟩] := by
  cases s with
  | tuple fields =>
    cases fields with
    | nil => rfl
    | cons field fields => simp [isTuple] at h
  | _ => rfl

theorem eq_tuple_of_isTuple {s : Schema} (h : s.isTuple = true) :
    ∃ field fields, s = .tuple (field :: fields) := by
  cases s with
  | tuple fields =>
    cases fields with
    | nil => cases h
    | cons field fields => exact ⟨field, fields, rfl⟩
  | _ => cases h

mutual

theorem sizeOf_le_of_mem_leavesAt {s : Schema} {path : Path} {leaf : Leaf}
    (h : leaf ∈ s.leavesAt path) : sizeOf leaf.schema ≤ sizeOf s := by
  match s with
  | .tuple (field :: fields) =>
    have hlt : sizeOf leaf.schema < sizeOf (field :: fields) := sizeOf_lt_of_mem_leavesFrom h
    simp only [tuple.sizeOf_spec]
    omega
  | .tuple [] | .bool | .int | .float | .str | .blob | .null | .emptyTuple | .emptyList
  | .emptyDict | .list _ | .dict | .option _ =>
    obtain rfl : leaf = _ := List.mem_singleton.mp h
    exact Nat.le_refl _

theorem sizeOf_lt_of_mem_leavesFrom {fields : List Schema} {path : Path} {i : Nat} {leaf : Leaf}
    (h : leaf ∈ leavesFrom fields path i) : sizeOf leaf.schema < sizeOf fields := by
  match fields with
  | [] => simp [leavesFrom] at h
  | field :: fields =>
    simp only [List.cons.sizeOf_spec]
    rcases List.mem_append.mp h with h | h
    · have hle := sizeOf_le_of_mem_leavesAt h
      omega
    · have hlt := sizeOf_lt_of_mem_leavesFrom h
      omega

end

mutual

theorem optionCount_eq_countP (s : Schema) (path : Path) :
    s.optionCount = (s.leavesAt path).countP fun leaf => leaf.schema.isOption := by
  match s with
  | .tuple (field :: fields) => exact optionCounts_eq_countP (field :: fields) path 0
  | .option _ => rfl
  | .tuple [] | .bool | .int | .float | .str | .blob | .null | .emptyTuple | .emptyList
  | .emptyDict | .list _ | .dict => rfl

theorem optionCounts_eq_countP (fields : List Schema) (path : Path) (i : Nat) :
    optionCounts fields = (leavesFrom fields path i).countP fun leaf => leaf.schema.isOption := by
  match fields with
  | [] => rfl
  | field :: fields =>
    rw [optionCounts, leavesFrom, List.countP_append, optionCount_eq_countP field (path ++ [i]),
      optionCounts_eq_countP fields path (i + 1)]

end

mutual

theorem isFixedSize_eq_all (s : Schema) (path : Path) :
    s.isFixedSize = (s.leavesAt path).all fun leaf => leaf.schema.isFixedSize := by
  match s with
  | .tuple (field :: fields) => exact allFixedSize_eq_all (field :: fields) path 0
  | .tuple [] | .bool | .int | .float | .str | .blob | .null | .emptyTuple | .emptyList
  | .emptyDict | .list _ | .dict | .option _ => exact (Bool.and_true _).symm

theorem allFixedSize_eq_all (fields : List Schema) (path : Path) (i : Nat) :
    allFixedSize fields = (leavesFrom fields path i).all fun leaf => leaf.schema.isFixedSize := by
  match fields with
  | [] => rfl
  | field :: fields =>
    rw [allFixedSize, leavesFrom, List.all_append, isFixedSize_eq_all field (path ++ [i]),
      allFixedSize_eq_all fields path (i + 1)]

end

/-- Induction over schemas as rows are laid out: a tuple rests on its leaves, nested ones included,
and not on its fields. -/
@[elab_as_elim]
theorem rowInduction {P : Schema → Prop} (bool : P .bool) (int : P .int) (float : P .float)
    (str : P .str) (blob : P .blob) (null : P .null) (emptyTuple : P .emptyTuple)
    (emptyList : P .emptyList) (emptyDict : P .emptyDict) (noFields : P (.tuple []))
    (tuple : ∀ field fields, (∀ leaf ∈ leavesFrom (field :: fields) [] 0, P leaf.schema) →
      P (.tuple (field :: fields)))
    (list : ∀ element, P element → P (.list element)) (dict : P .dict)
    (option : ∀ inner, P inner → P (.option inner)) (s : Schema) : P s := by
  match s with
  | .bool => exact bool
  | .int => exact int
  | .float => exact float
  | .str => exact str
  | .blob => exact blob
  | .null => exact null
  | .emptyTuple => exact emptyTuple
  | .emptyList => exact emptyList
  | .emptyDict => exact emptyDict
  | .tuple [] => exact noFields
  | .tuple (field :: fields) =>
    exact tuple field fields fun leaf _ =>
      rowInduction bool int float str blob null emptyTuple emptyList emptyDict noFields tuple list
        dict option leaf.schema
  | .list element =>
    exact list element (rowInduction bool int float str blob null emptyTuple emptyList emptyDict
      noFields tuple list dict option element)
  | .dict => exact dict
  | .option inner =>
    exact option inner (rowInduction bool int float str blob null emptyTuple emptyList emptyDict
      noFields tuple list dict option inner)
termination_by sizeOf s
decreasing_by
  · have hlt := sizeOf_lt_of_mem_leavesFrom ‹_›
    simp only [Schema.tuple.sizeOf_spec]
    omega
  all_goals simp

end Schema

namespace Decoder

/-- The readers of the leaves are the readers of their schemas. -/
theorem leafReaders_eq (d : Decoder) (fields : List Schema) (path : Path) (i : Nat) :
    leafReaders d fields path i =
      (Schema.leavesFrom fields path i).map fun leaf => ⟨leaf, reader d leaf.schema⟩ := by
  match fields with
  | [] => rfl
  | .tuple (field :: fields) :: rest =>
    rw [Schema.leavesFrom, Schema.leavesAt, List.map_append, leafReaders,
      leafReaders_eq d (field :: fields), leafReaders_eq d rest]
  | .tuple [] :: rest | .bool :: rest | .int :: rest | .float :: rest | .str :: rest
  | .blob :: rest | .null :: rest | .emptyTuple :: rest | .emptyList :: rest
  | .emptyDict :: rest | .list _ :: rest | .dict :: rest | .option _ :: rest =>
    simp [leafReaders, Schema.leavesFrom, Schema.leavesAt, leafReaders_eq d rest]

end Decoder

end RowFormat
