import RowFormat.Proofs.ValueEquality

namespace RowFormat

namespace Value

theorem sameEntries_perm {a b a' b' : List (Value × Value)} (ha : a.Perm a') (hb : b.Perm b') :
    sameEntries a' b' = sameEntries a b := by
  rw [Bool.eq_iff_iff, sameEntries_iff, sameEntries_iff, ha.length_eq, hb.length_eq]
  refine and_congr_right fun _ => ?_
  simp only [ha.mem_iff, hb.mem_iff]

/-- Two dicts are equal iff they are equally long and each entry of the first has an equal in the second.
An index of the second, where there is one, finds the same as going through it, and the entries of
either may stand in any order. -/
theorem sameEntries_unordered (a b : List (Value × Value)) :
    (sameEntries a b = true ↔
      a.length = b.length ∧ ∀ e ∈ a, ∃ f ∈ b, (f.1 == e.1) = true ∧ (f.2 == e.2) = true) ∧
    (∀ index, index? b = some index → matchedByIndex index a b = matchedByScan a b) ∧
    ∀ a' b', a.Perm a' → b.Perm b' → sameEntries a' b' = sameEntries a b := by
  refine ⟨sameEntries_iff a b, fun index h => ?_, fun a' b' ha hb => sameEntries_perm ha hb⟩
  rw [Bool.eq_iff_iff, matchedByIndex_iff h, matchedByScan_iff]

/-- Entries under the negative zero and under a number. -/
def underZero : List (Value × Value) := [(.float (.ofMagnitude true 0), .int 5), (.int 1, .null)]

/-- The same entries in the other order, and under the other zero. -/
def underOtherZero : List (Value × Value) := [(.int 1, .null), (.float .zero, .int 5)]

theorem sameEntries_unordered_underZero :
    (∃ index, index? underOtherZero = some index ∧
      matchedByIndex index underZero underOtherZero = matchedByScan underZero underOtherZero) ∧
    sameEntries underZero underOtherZero = true ∧
      sameEntries underZero.reverse underOtherZero = true := by
  have hsame : sameEntries underZero underOtherZero = true := by
    have hzeros : Binary64.zero.sameNumber (.ofMagnitude true 0) = true := by decide
    simp [sameEntries_iff, underZero, underOtherZero, same, hzeros]
  obtain ⟨_, hindexed, hperm⟩ := sameEntries_unordered underZero underOtherZero
  have hindex : index? underOtherZero =
      some ((Std.HashMap.insert ∅ (.int 1) 0).insert (.float Binary64.zero.bits) 1) := by
    have hnumber : Binary64.zero.isNaN = false := by decide
    simp [underOtherZero, index?, indexFrom, key?, hnumber]
  refine ⟨⟨_, hindex, hindexed _ hindex⟩, hsame, ?_⟩
  rw [hperm _ _ (List.reverse_perm underZero).symm (List.Perm.refl _), hsame]

end Value

end RowFormat
