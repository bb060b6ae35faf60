import RowFormat.Proofs.InsertionOrder

namespace RowFormat

namespace Value

theorem insertEntry_of_new {stored : List (Value × Value)} {key : Value}
    (h : ∀ e ∈ stored, (e.1 == key) = false) (value : Value) :
    insertEntry stored key value = stored ++ [(key, value)] := by
  induction stored with
  | nil => rfl
  | cons e stored ih =>
    obtain ⟨hfirst, hrest⟩ := List.forall_mem_cons.mp h
    rw [insertEntry, hfirst, if_neg Bool.false_ne_true, ih hrest, List.cons_append]

/-- Inserting under the key of an entry replaces the value there, if no earlier key is equal. -/
theorem insertEntry_of_getElem? {stored : List (Value × Value)} {key first old : Value} {i : Nat}
    (hi : stored[i]? = some (first, old)) (hsame : (first == key) = true)
    (hnew : ∀ j e, j < i → stored[j]? = some e → (e.1 == key) = false) (value : Value) :
    insertEntry stored key value = stored.set i (first, value) := by
  induction stored generalizing i with
  | nil => cases hi
  | cons e stored ih =>
    cases i with
    | zero =>
      obtain rfl := Option.some.inj hi
      rw [insertEntry, hsame, if_pos rfl, List.set_cons_zero]
    | succ i =>
      have hne := hnew 0 e (Nat.zero_lt_succ i) rfl
      rw [insertEntry, hne, if_neg Bool.false_ne_true, List.set_cons_succ]
      refine congrArg _ (ih hi fun j f hj hf => ?_)
      exact hnew (j + 1) f (Nat.succ_lt_succ hj) hf

/-- Inserting entries with keys that differ from each other and from the stored ones appends them. -/
theorem insertAll_of_apart {stored inserts : List (Value × Value)}
    (h : (stored ++ inserts).Pairwise fun e f => (e.1 == f.1) = false) :
    insertAll stored inserts = stored ++ inserts := by
  induction inserts generalizing stored with
  | nil => exact (List.append_nil stored).symm
  | cons e inserts ih =>
    have hnew (f : Value × Value) (hf : f ∈ stored) : (f.1 == e.1) = false :=
      (List.pairwise_append.mp h).2.2 f hf e List.mem_cons_self
    have hstep : insertEntry stored e.1 e.2 = stored ++ [e] := insertEntry_of_new hnew e.2
    rw [List.append_cons] at h ⊢
    rw [← hstep] at h ⊢
    exact ih h

end Value

namespace Dict

namespace Table

variable {lossy : Prop} {t : Table} {key : Value}

/-- The places tell which stored keys equal a given one. -/
theorem Sound.beq_iff {k : Key} (h : t.Sound (Value.IsHalf lossy)) (hk : key.key? = some k)
    {i : Nat} {e : Value × Value} (he : t.entries.toList[i]? = some e) :
    (e.1 == key) = true ↔ t.places[k]? = some i := by
  rw [Array.getElem?_toList] at he
  rw [h.places_iff, keyAt, he]
  exact Value.same_iff_of_key? hk

/-- Putting a value under a key that is found by its place does what an insertion does. -/
theorem toList_put (h : t.Sound (Value.IsHalf lossy)) (hkey : key.IsHalf lossy) (value : Value) :
    (t.put key value).entries.toList = Value.insertEntry t.entries.toList key value := by
  unfold put
  split
  next hnone =>
    have hnew (e : Value × Value) (_ : e ∈ t.entries.toList) : (e.1 == key) = false :=
      (Value.same_eq_false_of_key?_eq_none hkey hnone e.1).2
    rw [Value.insertEntry_of_new hnew, Array.toList_push]
  next k hk =>
    split
    next i hplace =>
      obtain ⟨⟨first, old⟩, hi, _⟩ := Option.bind_eq_some_iff.mp ((h.places_iff k i).mp hplace)
      rw [← Array.getElem?_toList] at hi
      have hearlier (j : Nat) (e : Value × Value) (hj : j < i)
          (he : t.entries.toList[j]? = some e) : (e.1 == key) = false := by
        rw [Bool.eq_false_iff, ne_eq, h.beq_iff hk he, hplace]
        intro hji
        obtain rfl := Option.some.inj hji
        exact Nat.lt_irrefl _ hj
      rw [Value.insertEntry_of_getElem? hi ((h.beq_iff hk hi).mpr hplace) hearlier,
        Array.toList_modify, List.modify_eq_set_getElem?, hi]
      rfl
    next hfree =>
      have hnew (e : Value × Value) (he : e ∈ t.entries.toList) : (e.1 == key) = false := by
        obtain ⟨i, hi⟩ := List.getElem?_of_mem he
        rw [Bool.eq_false_iff, ne_eq, h.beq_iff hk hi, hfree]
        exact Option.some_ne_none i ∘ Eq.symm
      rw [Value.insertEntry_of_new hnew, Array.toList_push]

theorem toList_foldl_put {entries : List (Value × Value)} (h : t.Sound (Value.IsHalf lossy))
    (hentries : ∀ e ∈ entries, e.1.IsHalf lossy ∧ e.2.IsHalf lossy) :
    (entries.foldl (fun t e => t.put e.1 e.2) t).entries.toList =
      Value.insertAll t.entries.toList entries := by
  induction entries generalizing t with
  | nil => rfl
  | cons e entries ih =>
    obtain ⟨⟨hkey, hvalue⟩, hrest⟩ := List.forall_mem_cons.mp hentries
    refine (ih (h.put hkey hvalue) hrest).trans ?_
    rw [toList_put h hkey e.2]
    rfl

end Table

/-- The entries of a dict are inserted one after the other, and their problems are reported so. -/
theorem readEntries_eq (position : Nat) (members : List (String × Json)) :
    readEntries position members =
      let halves := members.map fun (raw, node) => readEntry position raw node
      (Value.insertAll [] (halves.map Prod.fst), halves.flatMap Prod.snd) := by
  have hhalves (e : Value × Value)
      (he : e ∈ (members.map fun (raw, node) => readEntry position raw node).map Prod.fst) :
      e.1.IsHalf True ∧ e.2.IsHalf True := by
    obtain ⟨half, hhalf, rfl⟩ := List.mem_map.mp he
    obtain ⟨member, -, rfl⟩ := List.mem_map.mp hhalf
    exact isHalf_readEntry fun _ => trivial
  have htable := Table.toList_foldl_put Table.Sound.empty hhalves
  rw [List.foldl_map] at htable
  exact congrArg (·, _) htable

end Dict

end RowFormat
