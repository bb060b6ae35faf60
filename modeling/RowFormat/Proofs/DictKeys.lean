import RowFormat.Decoder.Dict

namespace RowFormat

namespace Value

/-- What half of an entry can be read as. -/
def isScalar : Value → Bool
  | .bool _ | .int _ | .float _ | .str _ => true
  | _ => false

/-- A half that was read, or a null in place of one that was lost. -/
def IsHalf (lossy : Prop) (v : Value) : Prop := v.isScalar = true ∨ lossy ∧ v = .null

theorem IsHalf.of_lossy {lossy : Prop} {v : Value} (h : v.IsHalf lossy) : v.IsHalf True :=
  h.imp id fun hlost => ⟨trivial, hlost.2⟩

theorem key?_float_eq_some_iff {x : Binary64} {k : Key} :
    (Value.float x).key? = some k ↔
      x.isNaN = false ∧ .float (if x.isZero then Binary64.zero.bits else x.bits) = k := by
  unfold key?
  cases hnan : x.isNaN with
  | true => simp [hnan]
  | false =>
    by_cases hzero : x.isZero
    · simp [hnan, hzero]
    · simp [hnan, hzero]

theorem sameNumber_iff_bits {x y : Binary64} (hy : y.isNaN = false) :
    x.sameNumber y = true ↔ x.isNaN = false ∧
      (if x.isZero then Binary64.zero.bits else x.bits) =
        (if y.isZero then Binary64.zero.bits else y.bits) := by
  have hzero : (⟨Binary64.zero.bits⟩ : Binary64).isZero = true := by decide
  have hbits : x = y ↔ x.bits = y.bits := by cases x; cases y; simp
  simp only [Binary64.sameNumber, hy, Bool.not_false, Bool.and_true, Bool.and_eq_true,
    Bool.not_eq_true', Bool.or_eq_true, beq_iff_eq]
  refine and_congr_right fun _ => ?_
  by_cases hxz : x.isZero
  · by_cases hyz : y.isZero
    · simp [hxz, hyz]
    · have hne : Binary64.zero.bits ≠ y.bits := fun h => hyz (by rw [h] at hzero; exact hzero)
      have hxy : x ≠ y := fun h => hyz (h ▸ hxz)
      simp [hxz, hyz, hne, hxy]
  · by_cases hyz : y.isZero
    · have hne : x.bits ≠ Binary64.zero.bits := fun h => hxz (by rw [← h] at hzero; exact hzero)
      have hxy : x ≠ y := fun h => hxz (h ▸ hyz)
      simp [hxz, hyz, hne, hxy]
    · simp [hxz, hyz, hbits]

theorem same_iff_of_key? {a b : Value} {k : Key} (h : b.key? = some k) :
    a.same b = true ↔ a.key? = some k := by
  cases b with
  | float y =>
    obtain ⟨hy, rfl⟩ := key?_float_eq_some_iff.mp h
    cases a with
    | float x => rw [same, sameNumber_iff_bits hy, key?_float_eq_some_iff, Key.float.injEq]
    | _ => simp [same, key?]
  | null | bool _ | int _ | str _ =>
    obtain rfl := Option.some.inj h
    cases a with
    | float x =>
      have hne (l : Key) (hl : ∀ bits, l ≠ .float bits) : (Value.float x).key? ≠ some l := fun hx =>
        hl _ (key?_float_eq_some_iff.mp hx).2.symm
      simp [same, hne]
    | _ => simp [same, key?]
  | tuple _ | list _ | dict _ | blob _ => simp [key?] at h

/-- A half without a key is a NaN, which equals nothing. -/
theorem same_eq_false_of_key?_eq_none {lossy : Prop} {a : Value} (ha : a.IsHalf lossy)
    (h : a.key? = none) (b : Value) : a.same b = false ∧ b.same a = false := by
  cases a with
  | float x =>
    cases hx : x.isNaN with
    | false =>
      have hsome := key?_float_eq_some_iff.mpr ⟨hx, rfl⟩
      rw [h] at hsome
      cases hsome
    | true =>
      cases b with
      | float y => simp [same, Binary64.sameNumber, hx]
      | _ => simp [same]
  | null | bool _ | int _ | str _ => simp [key?] at h
  | tuple _ | list _ | dict _ | blob _ => simp [IsHalf, isScalar] at ha

theorem same_eq_false_of_key?_ne {lossy : Prop} {a b : Value} (ha : a.IsHalf lossy)
    (hb : b.IsHalf lossy) (h : ∀ k, a.key? = some k → b.key? ≠ some k) :
    a.same b = false ∧ b.same a = false := by
  cases hka : a.key? with
  | none => exact same_eq_false_of_key?_eq_none ha hka b
  | some k =>
    cases hkb : b.key? with
    | none => exact (same_eq_false_of_key?_eq_none hb hkb a).symm
    | some l =>
      have hne : k ≠ l := fun hkl => h k hka (hkl ▸ hkb)
      constructor
      · rw [Bool.eq_false_iff, ne_eq, same_iff_of_key? hkb, hka]
        exact fun heq => hne (Option.some.inj heq)
      · rw [Bool.eq_false_iff, ne_eq, same_iff_of_key? hka, hkb]
        exact fun heq => hne (Option.some.inj heq).symm

end Value

namespace Dict

namespace Table

/-- The key of the entry at a place. -/
def keyAt (t : Table) (i : Nat) : Option Key := t.entries[i]?.bind fun e => e.1.key?

/-- The places are those of the keys, and every half satisfies a predicate. -/
structure Sound (P : Value → Prop) (t : Table) : Prop where
  places_iff (k : Key) (i : Nat) : t.places[k]? = some i ↔ t.keyAt i = some k
  halves (e : Value × Value) (he : e ∈ t.entries) : P e.1 ∧ P e.2

variable {P : Value → Prop} {t : Table} {key value : Value} {k : Key} {i : Nat}

theorem keyAt_push (places : Std.HashMap Key Nat) (j : Nat) :
    (⟨t.entries.push (key, value), places⟩ : Table).keyAt j =
      if j = t.entries.size then key.key? else t.keyAt j := by
  simp only [keyAt, Array.getElem?_push]
  split
  next => rfl
  next => rfl

theorem keyAt_modify (places : Std.HashMap Key Nat) (j : Nat) :
    (⟨t.entries.modify i fun (first, _) => (first, value), places⟩ : Table).keyAt j =
      t.keyAt j := by
  simp only [keyAt, Array.getElem?_modify]
  split
  next => cases t.entries[j]? <;> rfl
  next => rfl

theorem keyAt_size : t.keyAt t.entries.size = none := by simp [keyAt]

theorem Sound.empty : Sound P Table.empty where
  places_iff k i := by simp [Table.empty, keyAt]
  halves e he := by simp [Table.empty] at he

theorem Sound.halves_push (h : t.Sound P) (hkey : P key) (hvalue : P value) (e : Value × Value)
    (he : e ∈ t.entries.push (key, value)) : P e.1 ∧ P e.2 := by
  rcases Array.mem_push.mp he with he | rfl
  · exact h.halves e he
  · exact ⟨hkey, hvalue⟩

theorem Sound.push_of_no_key (h : t.Sound P) (hkey : P key) (hvalue : P value)
    (hnone : key.key? = none) : Sound P { t with entries := t.entries.push (key, value) } := by
  refine ⟨fun l j => ?_, h.halves_push hkey hvalue⟩
  rw [keyAt_push, h.places_iff]
  split
  next hj => simp [hj, hnone, keyAt_size]
  next => rfl

/-- An entry that gets another value keeps its key, so no place changes. -/
theorem Sound.modify (h : t.Sound P) (hvalue : P value) (i : Nat) :
    Sound P { t with entries := t.entries.modify i fun (first, _) => (first, value) } := by
  refine ⟨fun l j => ?_, fun e he => ?_⟩
  · rw [keyAt_modify]
    exact h.places_iff l j
  · obtain ⟨j, hj, rfl⟩ := Array.mem_iff_getElem.mp he
    have hold := h.halves _ (Array.getElem_mem (show j < t.entries.size by simpa using hj))
    rw [Array.getElem_modify]
    split
    next => exact ⟨hold.1, hvalue⟩
    next => exact hold

theorem Sound.push_of_new (h : t.Sound P) (hkey : P key) (hvalue : P value)
    (hk : key.key? = some k) (hnew : t.places[k]? = none) :
    Sound P ⟨t.entries.push (key, value), t.places.insert k t.entries.size⟩ := by
  refine ⟨fun l j => ?_, h.halves_push hkey hvalue⟩
  have hold := h.places_iff l j
  rw [keyAt_push, Std.HashMap.getElem?_insert]
  by_cases hkl : k = l
  · subst l
    rw [hnew] at hold
    by_cases hj : j = t.entries.size
    · simp [hj, hk]
    · simp [hj, Ne.symm hj, ← hold]
  · by_cases hj : j = t.entries.size
    · simp [hkl, hj, hk, h.places_iff, keyAt_size]
    · simp [hkl, hj, hold]

theorem Sound.put (h : t.Sound P) (hkey : P key) (hvalue : P value) :
    (t.put key value).Sound P := by
  unfold Table.put
  split
  next hnone => exact h.push_of_no_key hkey hvalue hnone
  next k hk =>
    split
    next i _ => exact h.modify hvalue i
    next hnew => exact h.push_of_new hkey hvalue hk hnew

theorem Sound.foldl_put (h : t.Sound P) {α : Type} {half : α → (Value × Value)} {xs : List α}
    (hxs : ∀ x ∈ xs, P (half x).1 ∧ P (half x).2) :
    (xs.foldl (fun t x => t.put (half x).1 (half x).2) t).Sound P := by
  induction xs generalizing t with
  | nil => exact h
  | cons x xs ih =>
    obtain ⟨hkey, hvalue⟩ := hxs x List.mem_cons_self
    exact ih (h.put hkey hvalue) fun y hy => hxs y (List.mem_cons_of_mem x hy)

theorem Sound.pairwise_keys {lossy : Prop} (h : t.Sound (Value.IsHalf lossy)) :
    t.entries.toList.Pairwise fun e f => (e.1 == f.1) = false ∧ (f.1 == e.1) = false := by
  rw [List.pairwise_iff_getElem]
  intro i j hi hj hij
  have hki (k : Key) (hk : t.entries.toList[i].1.key? = some k) : t.places[k]? = some i := by
    rw [h.places_iff]
    simpa [keyAt, show i < t.entries.size from hi] using hk
  have hkj (k : Key) (hk : t.entries.toList[j].1.key? = some k) : t.places[k]? = some j := by
    rw [h.places_iff]
    simpa [keyAt, show j < t.entries.size from hj] using hk
  have ha := h.halves _ (Array.mem_toList_iff.mp (List.getElem_mem hi))
  have hb := h.halves _ (Array.mem_toList_iff.mp (List.getElem_mem hj))
  refine Value.same_eq_false_of_key?_ne ha.1 hb.1 fun k hk hl => ?_
  have heq := (hki k hk).symm.trans (hkj k hl)
  have hplace := Option.some.inj heq
  omega

end Table

theorem isScalar_of_readKey {tag : UInt8} {literal : List Char} {raw : String} {v : Value}
    (h : readKey tag literal raw = .ok v) : v.isScalar = true := by
  simp only [readKey] at h
  split at h
  next => obtain rfl := Except.ok.inj h; rfl
  split at h
  next =>
    split at h
    next => obtain rfl := Except.ok.inj h; rfl
    split at h
    next => obtain rfl := Except.ok.inj h; rfl
    next => cases h
  split at h
  next =>
    split at h
    next => obtain rfl := Except.ok.inj h; rfl
    next => cases h
  split at h
  next =>
    split at h
    next => obtain rfl := Except.ok.inj h; rfl
    next => cases h
  next => cases h

theorem isScalar_of_nodeValue? {tag : UInt8} {node : Json} {v : Value}
    (h : nodeValue? tag node = some (some v)) : v.isScalar = true := by
  unfold nodeValue? at h
  split at h
  next =>
    obtain ⟨text, _, rfl⟩ := Option.map_eq_some_iff.mp (Option.some.inj h)
    rfl
  split at h
  next =>
    obtain rfl := Option.some.inj (Option.some.inj h)
    rfl
  split at h
  next =>
    obtain ⟨n, _, rfl⟩ := Option.map_eq_some_iff.mp (Option.some.inj h)
    rfl
  split at h
  next =>
    obtain ⟨x, _, rfl⟩ := Option.map_eq_some_iff.mp (Option.some.inj h)
    rfl
  next => cases h

theorem isScalar_of_readValue {tag : UInt8} {node : Json} {raw : String} {v : Value}
    (h : readValue tag node raw = .ok v) : v.isScalar = true := by
  unfold readValue at h
  split at h
  next value hvalue =>
    obtain rfl := Except.ok.inj h
    exact isScalar_of_nodeValue? hvalue
  next => cases h
  next => cases h

variable {lossy : Prop} {position : Nat}

theorem isHalf_recover {x : Except Complaint Value}
    (hx : ∀ v, x = .ok v → v.isScalar = true) (hlossy : (recover position x).2 ≠ [] → lossy) :
    (recover position x).1.IsHalf lossy := by
  cases x with
  | ok v => exact .inl (hx v rfl)
  | error c => exact .inr ⟨hlossy (by simp [recover]), rfl⟩

theorem isHalf_readEntry {raw : String} {node : Json}
    (hlossy : (readEntry position raw node).2 ≠ [] → lossy) :
    (readEntry position raw node).1.1.IsHalf lossy ∧
      (readEntry position raw node).1.2.IsHalf lossy := by
  unfold readEntry at hlossy ⊢
  split
  next hsplit =>
    rw [hsplit] at hlossy
    have hnull : lossy := hlossy (by simp)
    exact ⟨.inr ⟨hnull, rfl⟩, .inr ⟨hnull, rfl⟩⟩
  next keyTag valueTag literal hsplit =>
    rw [hsplit] at hlossy
    constructor
    · refine isHalf_recover (fun v hv => isScalar_of_readKey hv) fun hne => hlossy ?_
      exact List.append_ne_nil_of_left_ne_nil hne _
    · refine isHalf_recover (fun v hv => isScalar_of_readValue hv) fun hne => hlossy ?_
      exact List.append_ne_nil_of_right_ne_nil _ hne

theorem readEntries_sound {members : List (String × Json)}
    (hlossy : (readEntries position members).2 ≠ [] → lossy) :
    (∀ e ∈ (readEntries position members).1, e.1.IsHalf lossy ∧ e.2.IsHalf lossy) ∧
      (readEntries position members).1.Pairwise
        fun e f => (e.1 == f.1) = false ∧ (f.1 == e.1) = false := by
  have hentries (m : String × Json) (hm : m ∈ members) :
      (readEntry position m.1 m.2).1.1.IsHalf lossy ∧
        (readEntry position m.1 m.2).1.2.IsHalf lossy := by
    refine isHalf_readEntry fun hne => hlossy fun hnil => hne ?_
    simp only [readEntries, List.flatMap_map, List.flatMap_eq_nil_iff] at hnil
    exact hnil m hm
  have hsound := Table.Sound.empty.foldl_put hentries
  simp only [readEntries, List.foldl_map]
  refine ⟨fun e he => ?_, hsound.pairwise_keys⟩
  exact hsound.halves e (Array.mem_toList_iff.mp he)

end Dict

end RowFormat
