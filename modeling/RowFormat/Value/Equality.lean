import RowFormat.Value.Key
import Std.Data.HashMap

namespace RowFormat

namespace Value

/-- Extends an index by entries the first of which stands at place `i`. -/
def indexFrom (index : Std.HashMap Key Nat) (i : Nat) :
    List (Value × Value) → Option (Std.HashMap Key Nat)
  | [] => some index
  | (k, _) :: entries =>
    match k.key? with
    | none => none
    | some key => if index.contains key then none else indexFrom (index.insert key i) (i + 1) entries

/-- The place of every key, for entries that all have keys and no two the same. -/
def index? (entries : List (Value × Value)) : Option (Std.HashMap Key Nat) := indexFrom ∅ 0 entries

/-- The value that an index finds for a key. -/
def lookup? (index : Std.HashMap Key Nat) (entries : List (Value × Value)) (k : Value) :
    Option (Value × Value) :=
  match k.key? with
  | none => none
  | some key =>
    match index[key]? with
    | none => none
    | some i => entries[i]?

theorem mem_of_lookup? {index : Std.HashMap Key Nat} {entries : List (Value × Value)} {k : Value}
    {e : Value × Value} (h : lookup? index entries k = some e) : e ∈ entries := by
  unfold lookup? at h
  split at h
  · cases h
  · split at h
    · cases h
    · exact List.mem_of_getElem? h

mutual

/-- Whether two values are equal. -/
def same : Value → Value → Bool
  | .null, .null => true
  | .bool a, .bool b => a == b
  | .int a, .int b => a == b
  | .float a, .float b => a.sameNumber b
  | .str a, .str b => a == b
  | .tuple a, .tuple b => sameItems a b
  | .list a, .list b => sameItems a b
  | .dict a, .dict b => sameEntries a b
  | .blob a, .blob b => a == b
  | _, _ => false
termination_by a b => sizeOf a + sizeOf b

def sameItems : List Value → List Value → Bool
  | [], [] => true
  | a :: as, b :: bs => same a b && sameItems as bs
  | _, _ => false
termination_by a b => sizeOf a + sizeOf b

/-- Whether the second dict is as long as the first and has an equal for each of its entries. If
the keys of the second can be indexed, each entry is compared with the one under its key. -/
def sameEntries (a b : List (Value × Value)) : Bool :=
  a.length == b.length &&
    match index? b with
    | some index => a.attach.all fun ⟨(k, v), _ha⟩ =>
      match _h : lookup? index b k with
      | some (_, w) => same w v
      | none => false
    | none =>
      a.attach.all fun ⟨(k, v), _ha⟩ => b.attach.any fun ⟨(l, w), _hb⟩ => same l k && same w v
termination_by sizeOf a + sizeOf b
decreasing_by
  · have ha := List.sizeOf_lt_of_mem _ha
    have hb := List.sizeOf_lt_of_mem (mem_of_lookup? _h)
    simp only [Prod.mk.sizeOf_spec] at ha hb
    omega
  all_goals
    have ha := List.sizeOf_lt_of_mem _ha
    have hb := List.sizeOf_lt_of_mem _hb
    simp only [Prod.mk.sizeOf_spec] at ha hb
    omega

end

instance : BEq Value := ⟨same⟩

theorem all_attach {α : Type} {l : List α} {f : { x // x ∈ l } → Bool} {g : α → Bool}
    (h : ∀ x hx, f ⟨x, hx⟩ = g x) : l.attach.all f = l.all g := by
  rw [List.all_subtype h, List.unattach_attach]

theorem any_attach {α : Type} {l : List α} {f : { x // x ∈ l } → Bool} {g : α → Bool}
    (h : ∀ x hx, f ⟨x, hx⟩ = g x) : l.attach.any f = l.any g := by
  rw [List.any_subtype h, List.unattach_attach]

/-- Equality of dicts, said of the entries alone. -/
theorem sameEntries_eq (a b : List (Value × Value)) :
    sameEntries a b = (a.length == b.length &&
      match index? b with
      | some index => a.all fun (k, v) =>
        match lookup? index b k with
        | some (_, w) => same w v
        | none => false
      | none => a.all fun (k, v) => b.any fun (l, w) => same l k && same w v) := by
  rw [sameEntries]
  congr 1
  split
  · exact all_attach fun (k, v) _ => by dsimp only; split <;> simp_all
  · exact all_attach fun (k, v) _ => any_attach fun (l, w) _ => rfl

end Value

end RowFormat
