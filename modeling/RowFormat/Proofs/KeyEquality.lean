import RowFormat.Proofs.DoubleNumbers
import RowFormat.Proofs.ValueEquality

namespace RowFormat

/-- A key with a text of its own, a copy of the one it came with. -/
def Key.owned : Key → Key
  | .null => .null
  | .bool value => .bool value
  | .int value => .int value
  | .float bits => .float bits
  | .str value => .str (String.ofList value.toList)

theorem Key.owned_eq (k : Key) : k.owned = k := by
  cases k with
  | str value => exact congrArg Key.str String.ofList_toList
  | _ => rfl

namespace Value

/-- The values that are no scalars, and the NaNs, whatever their sign and the bits below. -/
inductive IsKeyless : Value → Prop
  | tuple (items : List Value) : IsKeyless (.tuple items)
  | list (items : List Value) : IsKeyless (.list items)
  | dict (entries : List (Value × Value)) : IsKeyless (.dict entries)
  | blob (bytes : ByteArray) : IsKeyless (.blob bytes)
  | nan (negative : Bool) {payload : Nat} (hpos : 0 < payload)
      (hlt : payload < Binary64.fractionLimit) :
      IsKeyless (.float (.ofMagnitude negative (Binary64.infinityMagnitude + payload)))

theorem key?_float_eq_none_iff {x : Binary64} : (float x).key? = none ↔ x.isNaN = true := by
  rw [key?]
  split
  next hnan => simp [hnan]
  next hnan => split <;> simp [hnan]

theorem key?_eq_none_iff {v : Value} : v.key? = none ↔ v.IsKeyless := by
  constructor
  · intro h
    cases v with
    | float x =>
      obtain ⟨negative, payload, hpos, hlt, rfl⟩ :=
        Binary64.isNaN_iff.mp (key?_float_eq_none_iff.mp h)
      exact .nan negative hpos hlt
    | tuple items => exact .tuple items
    | list items => exact .list items
    | dict entries => exact .dict entries
    | blob bytes => exact .blob bytes
    | null | bool _ | int _ | str _ => simp [key?] at h
  · intro h
    cases h with
    | nan negative hpos hlt =>
      exact key?_float_eq_none_iff.mpr (Binary64.isNaN_iff.mpr ⟨negative, _, hpos, hlt, rfl⟩)
    | _ => rfl

theorem key?_eq_iff_beq {a b : Value} {k l : Key} (ha : a.key? = some k) (hb : b.key? = some l) :
    k = l ↔ (a == b) = true := by
  rw [beq_eq_same, same_iff_of_key? hb, ha, Option.some.injEq]

theorem beq_eq_false_of_key? {a b : Value} {k : Key} (ha : a.key? = some k) (hb : b.key? = none) :
    (a == b) = false ∧ (b == a) = false := by
  have hne : a.key? ≠ b.key? := by
    rw [ha, hb]
    exact Option.some_ne_none k
  constructor
  · exact Bool.eq_false_iff.mpr fun h => hne (key?_eq_of_same h)
  · exact Bool.eq_false_iff.mpr fun h => hne (key?_eq_of_same h).symm

/-- Only containers, blobs and NaNs have no key. Values with keys are equal exactly if their keys are,
be these copied or not, and no value with a key equals one without. Doubles among them are equal
exactly if they stand for one number. -/
theorem key?_mirrors_beq (a b : Value) :
    (a.key? = none ↔ a.IsKeyless) ∧
      (∀ k l, a.key? = some k → b.key? = some l →
        (k = l ↔ (a == b) = true) ∧ (k.owned = l.owned ↔ (a == b) = true)) ∧
      (∀ k, a.key? = some k → b.key? = none → (a == b) = false ∧ (b == a) = false) ∧
      ∀ x y, a = .float x → b = .float y →
        ((a == b) = true ↔ ∃ n, x.number? = some n ∧ y.number? = some n) := by
  refine ⟨key?_eq_none_iff, fun k l ha hb => ?_, fun k => beq_eq_false_of_key?, ?_⟩
  · rw [Key.owned_eq, Key.owned_eq]
    exact ⟨key?_eq_iff_beq ha hb, key?_eq_iff_beq ha hb⟩
  · rintro x y rfl rfl
    rw [beq_eq_same, same]
    exact Binary64.sameNumber_iff_number?

/-- The two zeros have one key, and a NaN has none. -/
theorem key?_mirrors_beq_zeros :
    (float .zero).key? = some (.float 0) ∧ (float (.ofMagnitude true 0)).key? = some (.float 0) ∧
      (float .zero == float (.ofMagnitude true 0)) = true ∧
      (float (.ofMagnitude true (Binary64.infinityMagnitude + 1))).key? = none ∧
      (float .zero == float (.ofMagnitude true (Binary64.infinityMagnitude + 1))) = false := by
  have hzero : (float .zero).key? = some (.float 0) := rfl
  have hminus : (float (.ofMagnitude true 0)).key? = some (.float 0) := rfl
  have hnan : (float (.ofMagnitude true (Binary64.infinityMagnitude + 1))).key? = none :=
    (key?_mirrors_beq _ .null).1.mpr (.nan true (by decide) (by decide))
  refine ⟨hzero, hminus, ?_, hnan, ?_⟩
  · exact ((key?_mirrors_beq _ _).2.1 _ _ hzero hminus).1.mp rfl
  · exact ((key?_mirrors_beq _ _).2.2.1 _ hzero hnan).1

end Value

end RowFormat
