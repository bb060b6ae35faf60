import RowFormat.Proofs.Fields
import Mathlib.Data.List.Lex

namespace RowFormat

namespace Path

/-- Two paths part, and the first turns to the left of the second. -/
def Before (p q : Path) : Prop :=
  ∃ shared i j inner inner', p = shared ++ i :: inner ∧ q = shared ++ j :: inner' ∧ i < j

namespace Before

variable {p q : Path}

theorem lt (h : Before p q) : p < q := by
  obtain ⟨shared, i, j, inner, inner', rfl, rfl, hij⟩ := h
  exact List.Lex.append_left _ (List.Lex.rel hij) shared

theorem ne (h : Before p q) : p ≠ q := fun heq => List.lt_irrefl q (heq ▸ h.lt)

theorem not_isPrefix (h : Before p q) : ¬p <+: q := by
  obtain ⟨shared, i, j, inner, inner', rfl, rfl, hij⟩ := h
  intro hpre
  rw [List.prefix_append_right_inj, List.cons_prefix_cons] at hpre
  exact Nat.ne_of_lt hij hpre.1

theorem not_isPrefix_left (h : Before p q) : ¬q <+: p := by
  obtain ⟨shared, i, j, inner, inner', rfl, rfl, hij⟩ := h
  intro hpre
  rw [List.prefix_append_right_inj, List.cons_prefix_cons] at hpre
  exact Nat.ne_of_gt hij hpre.1

theorem sharedLength_lt (h : Before p q) :
    sharedLength p q < p.length ∧ sharedLength p q < q.length := by
  obtain ⟨shared, i, j, inner, inner', rfl, rfl, hij⟩ := h
  rw [sharedLength_append shared (Nat.ne_of_lt hij)]
  simp only [List.length_append, List.length_cons]
  omega

end Before

end Path

namespace Schema

/-- Only tuples have fields. -/
theorem fields_eq_nil {s : Schema} (h : s.isTuple = false) : s.fields = [] := by
  cases s with
  | tuple fields =>
    cases fields with
    | nil => rfl
    | cons field fields => cases h
  | _ => rfl

theorem isTuple_of_fieldAt?_cons {s t : Schema} {i : Nat} {path : Path}
    (h : s.fieldAt? (i :: path) = some t) : s.isTuple = true := by
  by_contra htuple
  rw [fieldAt?, fields_eq_nil (Bool.eq_false_iff.mpr htuple)] at h
  cases h

mutual

/-- The leaves of a field are the ends of the paths through it. -/
theorem mem_leavesAt_iff {s : Schema} {path : Path} {leaf : Leaf} :
    leaf ∈ s.leavesAt path ↔ ∃ inner, leaf.path = path ++ inner ∧
      s.fieldAt? inner = some leaf.schema ∧ leaf.schema.isTuple = false := by
  by_cases htuple : s.isTuple
  · match s, htuple with
    | .tuple (field :: fields), htuple =>
      rw [leavesAt, mem_leavesFrom_iff]
      constructor
      · rintro ⟨k, inner, part, hpath, hpart, hend⟩
        refine ⟨k :: inner, by rw [hpath, Nat.zero_add], ?_⟩
        rw [fieldAt?, Schema.fields, hpart]
        exact hend
      · rintro ⟨_ | ⟨k, inner⟩, hpath, hend, hleaf⟩
        -- The path would end at the tuple itself.
        · rw [← Option.some.inj hend, htuple] at hleaf
          cases hleaf
        · rw [fieldAt?, Schema.fields] at hend
          cases hpart : (field :: fields)[k]? with
          | none =>
            rw [hpart] at hend
            cases hend
          | some part =>
            rw [hpart] at hend
            exact ⟨k, inner, part, by rw [hpath, Nat.zero_add], hpart, hend, hleaf⟩
  · have hleaf := Bool.eq_false_iff.mpr htuple
    rw [leavesAt_of_not_isTuple hleaf, List.mem_singleton]
    constructor
    · rintro rfl
      exact ⟨[], (List.append_nil path).symm, rfl, hleaf⟩
    · rintro ⟨_ | ⟨k, inner⟩, hpath, hend, -⟩
      · rw [List.append_nil] at hpath
        cases leaf
        obtain rfl := hpath
        obtain rfl := Option.some.inj hend
        rfl
      · exact absurd (isTuple_of_fieldAt?_cons hend) htuple
termination_by sizeOf s

theorem mem_leavesFrom_iff {fields : List Schema} {path : Path} {i : Nat} {leaf : Leaf} :
    leaf ∈ leavesFrom fields path i ↔ ∃ k inner field, leaf.path = path ++ (i + k) :: inner ∧
      fields[k]? = some field ∧ field.fieldAt? inner = some leaf.schema ∧
      leaf.schema.isTuple = false := by
  match fields with
  | [] => simp [leavesFrom]
  | field :: fields =>
    rw [leavesFrom, List.mem_append, mem_leavesAt_iff, mem_leavesFrom_iff]
    constructor
    · rintro (⟨inner, hpath, hend⟩ | ⟨k, inner, part, hpath, hpart, hend⟩)
      · exact ⟨0, inner, field, by rw [hpath, List.append_assoc]; rfl, rfl, hend⟩
      · exact ⟨k + 1, inner, part, by rw [hpath, Nat.add_right_comm, Nat.add_assoc], hpart, hend⟩
    · rintro ⟨_ | k, inner, part, hpath, hpart, hend⟩
      · obtain rfl := Option.some.inj hpart
        exact .inl ⟨inner, by rw [hpath, List.append_assoc]; rfl, hend⟩
      · exact .inr ⟨k, inner, part, by rw [hpath, Nat.add_right_comm, Nat.add_assoc], hpart, hend⟩
termination_by sizeOf fields

end

mutual

/-- The leaves of a field follow each other from left to right. -/
theorem pairwise_leavesAt (s : Schema) (path : Path) :
    (s.leavesAt path).Pairwise fun a b => a.path.Before b.path := by
  match s with
  | .tuple (field :: fields) => exact pairwise_leavesFrom (field :: fields) path 0
  | .tuple [] | .bool | .int | .float | .str | .blob | .null | .emptyTuple | .emptyList
  | .emptyDict | .list _ | .dict | .option _ => exact List.pairwise_singleton ..

theorem pairwise_leavesFrom (fields : List Schema) (path : Path) (i : Nat) :
    (leavesFrom fields path i).Pairwise fun a b => a.path.Before b.path := by
  match fields with
  | [] => exact List.Pairwise.nil
  | field :: fields =>
    refine List.pairwise_append.mpr
      ⟨pairwise_leavesAt field _, pairwise_leavesFrom fields path (i + 1), fun a ha b hb => ?_⟩
    obtain ⟨inner, hleft, -⟩ := mem_leavesAt_iff.mp ha
    obtain ⟨k, inner', -, hright, -⟩ := mem_leavesFrom_iff.mp hb
    exact ⟨path, i, i + 1 + k, inner, inner', by rw [hleft, List.append_assoc]; rfl, hright, by omega⟩

end

variable {s : Schema}

theorem mem_leaves_iff (h : s.isTuple) {path : Path} {part : Schema} :
    ⟨path, part⟩ ∈ s.leaves ↔ s.fieldAt? path = some part ∧ part.isTuple = false := by
  obtain ⟨field, fields, rfl⟩ := eq_tuple_of_isTuple h
  rw [leaves]
  exact (mem_leavesAt_iff (s := .tuple (field :: fields))).trans (by simp)

/-- What a path leads through on its way are tuples. -/
theorem isTuple_of_isPrefix {path shorter : Path} {part : Schema} (h : s.fieldAt? path = some part)
    (hpre : shorter <+: path) (hne : shorter ≠ path) :
    ∃ t, s.fieldAt? shorter = some t ∧ t.isTuple = true := by
  obtain ⟨_ | ⟨i, inner⟩, rfl⟩ := hpre
  · exact absurd (List.append_nil shorter).symm hne
  · rw [fieldAt?_append] at h
    obtain ⟨t, ht, hinner⟩ := Option.bind_eq_some_iff.mp h
    exact ⟨t, ht, isTuple_of_fieldAt?_cons hinner⟩

end Schema

/-- For every tuple with fields, the list of leaves holds every path that ends at something else than
such a tuple, with what it ends at, and nothing more. No path is empty. From one to the next they
increase in the order of a dictionary, and of two none is the other or leads on from it, so what they
share is shorter than both. On its way a path leads through tuples with fields only. -/
theorem leaves_are_path_ends (field : Schema) (fields : List Schema) :
    ∃ leaves, (Schema.tuple (field :: fields)).leaves? = .ok leaves ∧
      (∀ path part, ⟨path, part⟩ ∈ leaves ↔
        (Schema.tuple (field :: fields)).fieldAt? path = some part ∧ part.isTuple = false) ∧
      (∀ leaf ∈ leaves, leaf.path ≠ []) ∧
      ((leaves.map Leaf.path).Pairwise fun p q => p < q ∧ p ≠ q ∧ ¬p <+: q ∧ ¬q <+: p ∧
        Path.sharedLength p q < p.length ∧ Path.sharedLength p q < q.length) ∧
      ∀ leaf ∈ leaves, ∀ path, path <+: leaf.path → path ≠ leaf.path →
        ∃ s, (Schema.tuple (field :: fields)).fieldAt? path = some s ∧ s.isTuple = true := by
  have htuple : (Schema.tuple (field :: fields)).isTuple := rfl
  refine ⟨_, if_pos htuple, fun path part => Schema.mem_leaves_iff htuple, fun leaf hleaf hpath => ?_,
    ?_, fun leaf hleaf path hpre hne => ?_⟩
  · obtain ⟨hend, hnot⟩ := (Schema.mem_leaves_iff htuple).mp hleaf
    rw [hpath] at hend
    rw [← Option.some.inj hend, htuple] at hnot
    cases hnot
  · rw [List.pairwise_map]
    refine (Schema.pairwise_leavesFrom (field :: fields) [] 0).imp fun h => ?_
    exact ⟨h.lt, h.ne, h.not_isPrefix, h.not_isPrefix_left, h.sharedLength_lt⟩
  · exact Schema.isTuple_of_isPrefix ((Schema.mem_leaves_iff htuple).mp hleaf).1 hpre hne

/-- A tuple with an inner one of no fields and a nullable one. -/
def emptyAndNullable : List Schema := [.tuple [.tuple [], .option (.tuple [.int])], .str]

theorem leaves_are_path_ends_emptyAndNullable :
    ∃ leaves, (Schema.tuple (.int :: emptyAndNullable)).leaves? = .ok leaves ∧
      ⟨[1, 1], .option (.tuple [.int])⟩ ∈ leaves ∧
      ∃ s, (Schema.tuple (.int :: emptyAndNullable)).fieldAt? [1] = some s ∧ s.isTuple = true := by
  obtain ⟨leaves, hleaves, hends, -, -, hway⟩ := leaves_are_path_ends .int emptyAndNullable
  have hnullable := (hends [1, 1] (.option (.tuple [.int]))).mpr ⟨rfl, rfl⟩
  exact ⟨leaves, hleaves, hnullable, hway _ hnullable [1] (by decide) (by decide)⟩

/-- A nullable field and a tuple without fields are leaves. -/
example : (Schema.tuple (.int :: emptyAndNullable)).leaves.map Leaf.path =
    [[0], [1, 0], [1, 1], [2]] := rfl

end RowFormat
