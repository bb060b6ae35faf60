import RowFormat.Value.Dict
import RowFormat.Proofs.ValueEquality

namespace RowFormat

namespace Value

/-- Scalars that equal themselves, which a NaN does not. -/
def isPlain : Value → Bool
  | .null | .bool _ | .int _ | .str _ => true
  | .float x => !x.isNaN
  | .tuple _ | .list _ | .dict _ | .blob _ => false

/-- An empty dict after insertions, one after the other. -/
def filled (inserts : List (Value × Value)) : Value :=
  inserts.foldl (fun d e => insert d e.1 e.2) emptyDict

/-- What is stored after inserting entries one after the other. -/
def insertAll (stored inserts : List (Value × Value)) : List (Value × Value) :=
  inserts.foldl (fun stored e => insertEntry stored e.1 e.2) stored

/-- The keys of the entries are plain. -/
def PlainKeys (entries : List (Value × Value)) : Prop := ∀ e ∈ entries, e.1.isPlain = true

theorem isPlain_iff {a : Value} : a.isPlain = true ↔ ∃ k, a.key? = some k := by
  cases a with
  | float x => simp [isPlain, key?_float_eq_some_iff]
  | _ => simp [isPlain, key?]

theorem beq_iff_of_isPlain {a b : Value} (h : a.isPlain = true) :
    (a == b) = true ↔ a.key? = b.key? := by
  obtain ⟨k, hk⟩ := isPlain_iff.mp h
  refine ⟨key?_eq_of_same, fun hkeys => ?_⟩
  exact (same_iff_of_key? (hkeys.symm.trans hk)).mpr hk

theorem beq_comm_of_isPlain {a b : Value} (ha : a.isPlain = true) (hb : b.isPlain = true) :
    (a == b) = (b == a) := by
  rw [Bool.eq_iff_iff, beq_iff_of_isPlain ha, beq_iff_of_isPlain hb]
  exact eq_comm

theorem keysApart_of_isPlain {a : Value} (h : a.isPlain = true) : a.KeysApart := by
  cases a with
  | null => exact .null
  | bool b => exact .bool b
  | int n => exact .int n
  | float x => exact .float x
  | str text => exact .str text
  | tuple _ | list _ | dict _ | blob _ => cases h

variable {stored inserts : List (Value × Value)} {key value : Value}

theorem map_fst_insertEntry (stored : List (Value × Value)) (key value : Value) :
    (insertEntry stored key value).map Prod.fst =
      if stored.any fun e => e.1 == key then stored.map Prod.fst
      else stored.map Prod.fst ++ [key] := by
  induction stored with
  | nil => rfl
  | cons e stored ih =>
    obtain ⟨k, v⟩ := e
    rw [insertEntry]
    by_cases hk : (k == key) = true
    · simp [hk]
    · simp only [hk, Bool.false_eq_true, ↓reduceIte, List.map_cons, ih, List.any_cons,
        Bool.false_or]
      split
      next => rfl
      next => rfl

/-- Entries with plain keys, no two of them equal. -/
structure IsMap (entries : List (Value × Value)) : Prop where
  keys : PlainKeys entries
  apart : entries.Pairwise fun e f => (e.1 == f.1) = false

theorem IsMap.nil : IsMap [] := ⟨List.forall_mem_nil _, .nil⟩

theorem isMap_iff_map_fst (entries : List (Value × Value)) :
    IsMap entries ↔ (∀ k ∈ entries.map Prod.fst, k.isPlain = true) ∧
      (entries.map Prod.fst).Pairwise fun k l => (k == l) = false := by
  rw [List.forall_mem_map, List.pairwise_map]
  exact ⟨fun h => ⟨h.keys, h.apart⟩, fun h => ⟨h.1, h.2⟩⟩

theorem IsMap.insertEntry (h : IsMap stored) (hkey : key.isPlain = true) (value : Value) :
    IsMap (insertEntry stored key value) := by
  rw [isMap_iff_map_fst] at h ⊢
  obtain ⟨hkeys, hapart⟩ := h
  rw [map_fst_insertEntry]
  split
  next => exact ⟨hkeys, hapart⟩
  next hnew =>
    constructor
    · intro k hk
      rcases List.mem_append.mp hk with hk | hk
      · exact hkeys k hk
      · obtain rfl := List.mem_singleton.mp hk
        exact hkey
    · refine List.pairwise_append.mpr ⟨hapart, List.pairwise_singleton _ _, fun k hk l hl => ?_⟩
      obtain rfl := List.mem_singleton.mp hl
      obtain ⟨e, he, rfl⟩ := List.mem_map.mp hk
      rw [List.any_eq_true] at hnew
      exact Bool.eq_false_iff.mpr fun heq => hnew ⟨e, he, heq⟩

/-- The value under a key after an insertion. -/
theorem find?_insertEntry (h : PlainKeys stored) (hkey : key.isPlain = true) (value k : Value) :
    ((insertEntry stored key value).find? fun e => e.1 == k).map Prod.snd =
      if key == k then some value else (stored.find? fun e => e.1 == k).map Prod.snd := by
  induction stored with
  | nil =>
    rw [Value.insertEntry, List.find?_singleton]
    split
    next => rfl
    next => rfl
  | cons e stored ih =>
    obtain ⟨first, v⟩ := e
    obtain ⟨hfirst, hrest⟩ := List.forall_mem_cons.mp h
    rw [Value.insertEntry]
    by_cases hsame : (first == key) = true
    · -- The stored key and the inserted one find the same keys.
      have hkeys := (beq_iff_of_isPlain hfirst).mp hsame
      have hfind : (first == k) = (key == k) := by
        rw [Bool.eq_iff_iff, beq_iff_of_isPlain hfirst, beq_iff_of_isPlain hkey, hkeys]
      rw [if_pos hsame, List.find?_cons, List.find?_cons, hfind]
      cases key == k with
      | true => rfl
      | false => rfl
    · rw [if_neg hsame, List.find?_cons, List.find?_cons]
      by_cases hfind : (first == k) = true
      · have hother : (key == k) ≠ true := by
          intro hk
          rw [beq_iff_of_isPlain hfirst] at hfind hsame
          rw [beq_iff_of_isPlain hkey] at hk
          exact hsame (hfind.trans hk.symm)
        rw [hfind, if_neg hother]
      · rw [Bool.eq_false_iff.mpr hfind]
        exact ih hrest

theorem foldl_insert (stored inserts : List (Value × Value)) :
    inserts.foldl (fun d e => insert d e.1 e.2) (dict stored) =
      dict (insertAll stored inserts) := by
  induction inserts generalizing stored with
  | nil => rfl
  | cons e inserts ih => exact ih (insertEntry stored e.1 e.2)

theorem IsMap.insertAll (h : IsMap stored) (hinserts : PlainKeys inserts) :
    IsMap (insertAll stored inserts) := by
  induction inserts generalizing stored with
  | nil => exact h
  | cons e inserts ih =>
    obtain ⟨hkey, hrest⟩ := List.forall_mem_cons.mp hinserts
    exact ih (h.insertEntry hkey e.2) hrest

/-- The stored keys are those that a removal of repetitions keeps. -/
theorem map_fst_insertAll (h : IsMap stored) (hinserts : PlainKeys inserts) :
    (insertAll stored inserts).map Prod.fst =
      List.eraseDupsBy.loop (· == ·) (inserts.map Prod.fst) (stored.map Prod.fst).reverse := by
  induction inserts generalizing stored with
  | nil => simp [Value.insertAll, List.eraseDupsBy.loop]
  | cons e inserts ih =>
    obtain ⟨hkey, hrest⟩ := List.forall_mem_cons.mp hinserts
    have hany : (stored.map Prod.fst).reverse.any (e.1 == ·) = stored.any fun f => f.1 == e.1 := by
      rw [List.any_reverse, List.any_map]
      rw [Bool.eq_iff_iff, List.any_eq_true, List.any_eq_true]
      refine exists_congr fun f => and_congr_right fun hf => ?_
      exact Bool.eq_iff_iff.mp (beq_comm_of_isPlain hkey (h.keys f hf))
    have hstep := ih (h.insertEntry hkey e.2) hrest
    rw [map_fst_insertEntry] at hstep
    rw [List.map_cons, List.eraseDupsBy.loop, hany]
    refine hstep.trans ?_
    cases stored.any fun f => f.1 == e.1 with
    | true => rfl
    | false => simp

/-- The value under a key is that of its last insertion, or the one that was stored before. -/
theorem find?_insertAll (h : IsMap stored) (hinserts : PlainKeys inserts) (k : Value) :
    ((insertAll stored inserts).find? fun e => e.1 == k).map Prod.snd =
      ((inserts.reverse.find? fun e => e.1 == k).map Prod.snd).or
        ((stored.find? fun e => e.1 == k).map Prod.snd) := by
  induction inserts generalizing stored with
  | nil => rfl
  | cons e inserts ih =>
    obtain ⟨hkey, hrest⟩ := List.forall_mem_cons.mp hinserts
    refine (ih (h.insertEntry hkey e.2) hrest).trans ?_
    rw [find?_insertEntry h.keys hkey e.2, List.reverse_cons, List.find?_append, List.find?_singleton,
      Option.map_or, Option.or_assoc]
    split
    next => rfl
    next => rfl

theorem IsMap.get?_eq_some_iff (h : IsMap stored) :
    get? (.dict stored) key = some value ↔ ∃ e ∈ stored, (e.1 == key) = true ∧ e.2 = value := by
  rw [get?, Option.map_eq_some_iff]
  constructor
  · rintro ⟨e, hfound, rfl⟩
    have hkey : (e.1 == key) = true := by simpa using List.find?_some hfound
    exact ⟨e, List.mem_of_find?_eq_some hfound, hkey, rfl⟩
  · rintro ⟨e, he, hkey, rfl⟩
    refine ⟨e, ?_, rfl⟩
    obtain ⟨before, behind, rfl⟩ := List.append_of_mem he
    refine List.find?_eq_some_iff_append.mpr ⟨hkey, before, behind, rfl, fun f hf => ?_⟩
    have hne := (List.pairwise_append.mp h.apart).2.2 f hf e List.mem_cons_self
    have hplain : f.1.isPlain = true := h.keys f (List.mem_append_left _ hf)
    have hfound : (f.1 == e.1) = (f.1 == key) := by
      rw [Bool.eq_iff_iff, beq_iff_of_isPlain hplain, beq_iff_of_isPlain hplain,
        key?_eq_of_same hkey]
    rw [hfound] at hne
    exact congrArg not hne

/-- A map whose values are plain too. -/
structure IsPlainMap (entries : List (Value × Value)) : Prop extends IsMap entries where
  values : ∀ e ∈ entries, e.2.isPlain = true

variable {as bs : List (Value × Value)}

theorem IsPlainMap.keysApart (h : IsPlainMap stored) : (dict stored).KeysApart :=
  .dict (fun e he => keysApart_of_isPlain (h.keys e he))
    (fun e he => keysApart_of_isPlain (h.values e he)) h.apart

theorem IsPlainMap.beq_comm (ha : IsPlainMap as) (hb : IsPlainMap bs) :
    (dict as == dict bs) = (dict bs == dict as) := by
  rw [Bool.eq_iff_iff]
  exact ⟨same_symm ha.keysApart hb.keysApart, same_symm hb.keysApart ha.keysApart⟩

theorem dict_beq_iff : (dict as == dict bs) = true ↔
    as.length = bs.length ∧ ∀ e ∈ as, ∃ f ∈ bs, f.1.same e.1 = true ∧ f.2.same e.2 = true := by
  rw [beq_eq_same, same, sameEntries_iff]

theorem IsPlainMap.exists_get?_of_beq (ha : IsPlainMap as) (hb : IsPlainMap bs)
    (h : (dict as == dict bs) = true) (hget : get? (.dict as) key = some value) :
    ∃ w, get? (.dict bs) key = some w ∧ (value == w) = true := by
  obtain ⟨e, he, hkey, rfl⟩ := ha.get?_eq_some_iff.mp hget
  obtain ⟨f, hf, hfkey, hfvalue⟩ := (dict_beq_iff.mp h).2 e he
  refine ⟨f.2, hb.get?_eq_some_iff.mpr ⟨f, hf, same_trans hfkey hkey, rfl⟩, ?_⟩
  rw [beq_comm_of_isPlain (ha.values e he) (hb.values f hf)]
  exact hfvalue

/-- Equal dicts agree under every key, the keys of neither among them. -/
theorem IsPlainMap.get?_beq (ha : IsPlainMap as) (hb : IsPlainMap bs)
    (h : (dict as == dict bs) = true) (k : Value) :
    (get? (.dict as) k == get? (.dict bs) k) = true := by
  cases hget : get? (.dict as) k with
  | some v =>
    obtain ⟨w, hget', hvalue⟩ := ha.exists_get?_of_beq hb h hget
    rw [hget']
    exact hvalue
  | none =>
    cases hget' : get? (.dict bs) k with
    | none => rfl
    | some w =>
      rw [ha.beq_comm hb] at h
      obtain ⟨v, hsome, _⟩ := hb.exists_get?_of_beq ha h hget'
      rw [hget] at hsome
      cases hsome

theorem IsPlainMap.beq_of_get? (ha : IsPlainMap as) (hb : IsPlainMap bs)
    (hlength : as.length = bs.length)
    (h : ∀ k, (get? (.dict as) k == get? (.dict bs) k) = true) :
    (dict as == dict bs) = true := by
  refine dict_beq_iff.mpr ⟨hlength, fun e he => ?_⟩
  have hself : (e.1 == e.1) = true := (beq_iff_of_isPlain (ha.keys e he)).mpr rfl
  have hagree := h e.1
  rw [ha.get?_eq_some_iff.mpr ⟨e, he, hself, rfl⟩] at hagree
  cases hget : get? (.dict bs) e.1 with
  | none =>
    rw [hget] at hagree
    cases hagree
  | some w =>
    obtain ⟨f, hf, hkey, rfl⟩ := hb.get?_eq_some_iff.mp hget
    rw [hget] at hagree
    have hvalue : (e.2 == f.2) = true := hagree
    rw [beq_comm_of_isPlain (ha.values e he) (hb.values f hf)] at hvalue
    exact ⟨f, hf, hkey, hvalue⟩

/-- An insertion leaves every unequal key as it was. -/
theorem IsMap.get?_insert_of_ne (h : IsMap stored) (hkey : key.isPlain = true) (value : Value)
    {k : Value} (hne : (key == k) = false) :
    get? (insert (.dict stored) key value) k = get? (.dict stored) k := by
  have hfind := find?_insertEntry h.keys hkey value k
  rw [hne] at hfind
  exact hfind

/-- Filling an empty dict with plain keys gives a map in the order of first insertion: what is under
a key is what was inserted last under an equal one, and a further insertion changes no other key.
Two such dicts with plain values are equal iff they have as many entries and the same under every
key. -/
theorem filled_isMap (inserts : List (Value × Value)) (hkeys : PlainKeys inserts) :
    ∃ stored, filled inserts = .dict stored ∧
      stored.Pairwise (fun e f => (e.1 == f.1) = false ∧ (f.1 == e.1) = false) ∧
      stored.map Prod.fst = (inserts.map Prod.fst).eraseDups ∧
      (∀ k, get? (.dict stored) k = (inserts.reverse.find? fun e => e.1 == k).map Prod.snd) ∧
      (∀ key value k, key.isPlain = true → (key == k) = false →
        get? (insert (.dict stored) key value) k = get? (.dict stored) k) ∧
      ∀ (inserts' stored' : List (Value × Value)), PlainKeys inserts' →
        filled inserts' = .dict stored' →
        (∀ e ∈ stored, e.2.isPlain = true) → (∀ e ∈ stored', e.2.isPlain = true) →
        ((dict stored == dict stored') = true ↔ stored.length = stored'.length ∧
          ∀ k, (get? (.dict stored) k == get? (.dict stored') k) = true) ∧
        (dict stored == dict stored') = (dict stored' == dict stored) := by
  have hmap := IsMap.nil.insertAll hkeys
  refine ⟨insertAll [] inserts, foldl_insert [] inserts, ?_, ?_, ?_, ?_, ?_⟩
  · refine hmap.apart.imp_of_mem fun {e f} he hf hne => ⟨hne, ?_⟩
    rw [← beq_comm_of_isPlain (hmap.keys e he) (hmap.keys f hf)]
    exact hne
  · exact map_fst_insertAll .nil hkeys
  · intro k
    exact (find?_insertAll .nil hkeys k).trans (Option.or_none ..)
  · intro key value k hkey hne
    exact hmap.get?_insert_of_ne hkey value hne
  · intro inserts' stored' hkeys' hstored' hvalues hvalues'
    rw [filled, emptyDict, foldl_insert] at hstored'
    cases hstored'
    have ha : IsPlainMap (insertAll [] inserts) := ⟨hmap, hvalues⟩
    have hb : IsPlainMap (insertAll [] inserts') := ⟨IsMap.nil.insertAll hkeys', hvalues'⟩
    refine ⟨⟨fun h => ⟨(dict_beq_iff.mp h).1, ha.get?_beq hb h⟩, fun h => ?_⟩, ha.beq_comm hb⟩
    exact ha.beq_of_get? hb h.1 h.2

/-- Insertions under the number one, under the same number as a float, and under both zeros. -/
def numberInserts : List (Value × Value) :=
  [(.int 1, .str "integer"), (.float ⟨0x3ff0000000000000⟩, .str "float"), (.float ⟨0⟩, .bool true),
    (.int 1, .null), (.float ⟨0x8000000000000000⟩, .bool false)]

def numberEntries : List (Value × Value) :=
  [(.int 1, .null), (.float ⟨0x3ff0000000000000⟩, .str "float"), (.float ⟨0⟩, .bool false)]

theorem filled_isMap_numbers :
    filled numberInserts = .dict numberEntries ∧
      filled numberEntries.reverse = .dict numberEntries.reverse ∧
      numberEntries.map Prod.fst = (numberInserts.map Prod.fst).eraseDups ∧
      ∀ k, (get? (.dict numberEntries) k == get? (.dict numberEntries.reverse) k) = true := by
  have hzeros : (⟨0⟩ : Binary64).sameNumber ⟨0x8000000000000000⟩ = true := by decide
  have hone : (⟨0x3ff0000000000000⟩ : Binary64).sameNumber ⟨0⟩ = false := by decide
  have hone' : (⟨0⟩ : Binary64).sameNumber ⟨0x3ff0000000000000⟩ = false := by decide
  have hone'' : (⟨0x3ff0000000000000⟩ : Binary64).sameNumber ⟨0x8000000000000000⟩ = false := by
    decide
  have hzero : (⟨0⟩ : Binary64).sameNumber ⟨0⟩ = true := by decide
  have hself : (⟨0x3ff0000000000000⟩ : Binary64).sameNumber ⟨0x3ff0000000000000⟩ = true := by
    decide
  have hfilled : filled numberInserts = .dict numberEntries := by
    simp [filled, numberInserts, numberEntries, emptyDict, insert, insertEntry, beq_eq_same, same,
      hzeros, hone, hone'']
  have hfilled' : filled numberEntries.reverse = .dict numberEntries.reverse := by
    simp [filled, numberEntries, emptyDict, insert, insertEntry, beq_eq_same, same, hone']
  have hkeys : PlainKeys numberInserts := by
    unfold PlainKeys
    decide
  have hkeys' : PlainKeys numberEntries.reverse := by
    unfold PlainKeys
    decide
  have hvalues : ∀ e ∈ numberEntries, e.2.isPlain = true := by decide
  have hvalues' : ∀ e ∈ numberEntries.reverse, e.2.isPlain = true := by decide
  have hequal : (dict numberEntries == dict numberEntries.reverse) = true := by
    simp [numberEntries, dict_beq_iff, same, hzero, hself]
  obtain ⟨stored, hstored, _, hfst, _, _, hiff⟩ := filled_isMap numberInserts hkeys
  obtain rfl : numberEntries = stored := dict.inj (hfilled.symm.trans hstored)
  refine ⟨hfilled, hfilled', hfst, ?_⟩
  exact ((hiff _ _ hkeys' hfilled' hvalues hvalues').1.mp hequal).2

end Value

end RowFormat
