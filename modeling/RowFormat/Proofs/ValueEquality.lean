import RowFormat.Proofs.Conformance

namespace RowFormat

/-- Two lists of one length are matched from both sides if each element of the first has a match, and
no element of the second is the match of two. -/
theorem exists_partner_of_length_eq {α β : Type} {R : α → β → Prop} {as : List α} {bs : List β}
    (hlength : as.length = bs.length) (h : ∀ a ∈ as, ∃ b ∈ bs, R a b)
    (hapart : as.Pairwise fun a c => ∀ b ∈ bs, R a b → ¬R c b) : ∀ b ∈ bs, ∃ a ∈ as, R a b := by
  induction as generalizing bs with
  | nil =>
    intro b hb
    rw [List.eq_nil_of_length_eq_zero hlength.symm] at hb
    cases hb
  | cons a as ih =>
    obtain ⟨hfirst, hrest⟩ := List.pairwise_cons.mp hapart
    obtain ⟨partner, hmem, hmatch⟩ := h a List.mem_cons_self
    obtain ⟨before, behind, rfl⟩ := List.append_of_mem hmem
    -- The match of the first element is taken; the others have theirs among the rest.
    have hothers (c : α) (hc : c ∈ as) : ∃ b ∈ before ++ behind, R c b := by
      obtain ⟨b, hb, hcb⟩ := h c (List.mem_cons_of_mem a hc)
      refine ⟨b, ?_, hcb⟩
      rcases List.mem_append.mp hb with hb | hb
      · exact List.mem_append_left behind hb
      · rcases List.mem_cons.mp hb with rfl | hb
        · exact absurd hcb (hfirst c hc b hmem hmatch)
        · exact List.mem_append_right before hb
    have hsublist : (before ++ behind).Sublist (before ++ partner :: behind) :=
      (List.Sublist.refl before).append (List.sublist_cons_self partner behind)
    have hkept := hrest.imp fun hac b hb => hac b (hsublist.subset hb)
    have hcount : as.length = (before ++ behind).length := by
      simp only [List.length_append, List.length_cons] at hlength ⊢
      omega
    intro b hb
    have hcases : b = partner ∨ b ∈ before ++ behind := by
      simpa only [List.mem_append, List.mem_cons, or_left_comm] using hb
    rcases hcases with rfl | hb
    · exact ⟨a, List.mem_cons_self, hmatch⟩
    · obtain ⟨c, hc, hcb⟩ := ih hcount hothers hkept b hb
      exact ⟨c, List.mem_cons_of_mem a hc, hcb⟩

namespace Value

theorem beq_eq_same (a b : Value) : (a == b) = a.same b := rfl

theorem key?_eq_of_same {a b : Value} (h : a.same b = true) : a.key? = b.key? := by
  cases hb : b.key? with
  | some k => exact (same_iff_of_key? hb).mp h
  | none =>
    cases ha : a.key? with
    | none => rfl
    | some k =>
      -- A value without a key is a container, a blob or a NaN, and no scalar equals one of these.
      cases b with
      | float y =>
        have hhalf : (float y).IsHalf False := .inl rfl
        have hnan := (same_eq_false_of_key?_eq_none hhalf hb a).2
        rw [h] at hnan
        cases hnan
      | null | bool _ | int _ | str _ => simp [key?] at hb
      | tuple _ | list _ | dict _ | blob _ =>
        cases a with
        | tuple _ | list _ | dict _ | blob _ => simp [key?] at ha
        | _ => simp [same] at h

theorem blob_beq_iff {a b : ByteArray} : (a == b) = true ↔ a = b := by
  rw [ByteArray.ext_iff]
  exact beq_iff_eq (a := a.data)

/-- Equal values without keys are containers of one kind with equal contents, or the same bytes. -/
theorem same_cases {a b : Value} (h : a.same b = true) (hkey : a.key? = none) :
    (∃ as bs, a = .tuple as ∧ b = .tuple bs ∧ sameItems as bs = true) ∨
      (∃ as bs, a = .list as ∧ b = .list bs ∧ sameItems as bs = true) ∨
      (∃ as bs, a = .dict as ∧ b = .dict bs ∧ sameEntries as bs = true) ∨
      ∃ bytes, a = .blob bytes ∧ b = .blob bytes := by
  cases a with
  | null | bool _ | int _ | str _ => simp [key?] at hkey
  | float x =>
    have hhalf : (float x).IsHalf False := .inl rfl
    rw [(same_eq_false_of_key?_eq_none hhalf hkey b).1] at h
    cases h
  | tuple as => cases b <;> simp_all [same]
  | list as => cases b <;> simp_all [same]
  | dict as => cases b <;> simp_all [same]
  | blob bytes => cases b <;> simp_all [same, blob_beq_iff]

/-- An index has the place of every key, and every entry has a key. -/
theorem indexFrom_eq_some {index out : Std.HashMap Key Nat} {i : Nat} {entries : List (Value × Value)}
    (h : indexFrom index i entries = some out) :
    (∀ e ∈ entries, ∃ k, e.1.key? = some k ∧ index[k]? = none) ∧
      ∀ k j, out[k]? = some j ↔
        index[k]? = some j ∨ ∃ p, j = i + p ∧ (entries[p]?.bind fun e => e.1.key?) = some k := by
  induction entries generalizing index i with
  | nil =>
    obtain rfl := Option.some.inj h
    exact ⟨List.forall_mem_nil _, by simp⟩
  | cons e entries ih =>
    obtain ⟨first, value⟩ := e
    rw [indexFrom] at h
    split at h
    next => cases h
    next key hkey =>
      split at h
      next => cases h
      next hnew =>
        have hfree : index[key]? = none := by simpa using hnew
        obtain ⟨hkeys, hplaces⟩ := ih h
        constructor
        · intro e he
          rcases List.mem_cons.mp he with rfl | he
          · exact ⟨key, hkey, hfree⟩
          · obtain ⟨k, hk, hknew⟩ := hkeys e he
            rw [Std.HashMap.getElem?_insert] at hknew
            split at hknew
            next => cases hknew
            next => exact ⟨k, hk, hknew⟩
        · intro k j
          rw [hplaces, Std.HashMap.getElem?_insert]
          constructor
          · rintro (hold | ⟨p, rfl, hp⟩)
            · split at hold
              next hsame =>
                obtain rfl := Option.some.inj hold
                obtain rfl : key = k := by simpa using hsame
                exact .inr ⟨0, rfl, hkey⟩
              next => exact .inl hold
            · exact .inr ⟨p + 1, by omega, hp⟩
          · rintro (hold | ⟨p, rfl, hp⟩)
            · refine .inl ?_
              rw [if_neg]
              · exact hold
              · intro hsame
                obtain rfl : key = k := by simpa using hsame
                rw [hfree] at hold
                cases hold
            · cases p with
              | zero =>
                have hk : some key = some k := hkey.symm.trans hp
                exact .inl (by simp [Option.some.inj hk])
              | succ p => exact .inr ⟨p, by omega, hp⟩

theorem lookup?_eq_some_iff {index : Std.HashMap Key Nat} {entries : List (Value × Value)}
    (h : index? entries = some index) {k : Value} {e : Value × Value} :
    lookup? index entries k = some e ↔ e ∈ entries ∧ e.1.same k = true := by
  obtain ⟨hkeys, hplaces⟩ := indexFrom_eq_some h
  have hplace (key : Key) (i : Nat) :
      index[key]? = some i ↔ (entries[i]?.bind fun e => e.1.key?) = some key := by
    simp [hplaces]
  unfold lookup?
  constructor
  · intro hfound
    split at hfound
    next => cases hfound
    next key hkey =>
      split at hfound
      next => cases hfound
      next i hi =>
        have hentry := (hplace key i).mp hi
        rw [hfound] at hentry
        exact ⟨List.mem_of_getElem? hfound, (same_iff_of_key? hkey).mpr hentry⟩
  · rintro ⟨hmem, hsame⟩
    obtain ⟨key, hkey, _⟩ := hkeys e hmem
    obtain ⟨i, hi⟩ := List.getElem?_of_mem hmem
    have hk : k.key? = some key := (key?_eq_of_same hsame).symm.trans hkey
    have hfound : index[key]? = some i := by
      rw [hplace, hi]
      exact hkey
    simp only [hk, hfound, hi]

/-- Whether each entry of the first dict has an equal in the second, looked up by its key. -/
def matchedByIndex (index : Std.HashMap Key Nat) (a b : List (Value × Value)) : Bool :=
  a.all fun (k, v) =>
    match lookup? index b k with
    | some (_, w) => same w v
    | none => false

/-- Whether each entry of the first dict has an equal in the second, found by going through that. -/
def matchedByScan (a b : List (Value × Value)) : Bool :=
  a.all fun (k, v) => b.any fun (l, w) => same l k && same w v

theorem sameEntries_eq_matched (a b : List (Value × Value)) :
    sameEntries a b = (a.length == b.length &&
      match index? b with
      | some index => matchedByIndex index a b
      | none => matchedByScan a b) := sameEntries_eq a b

theorem matchedByScan_iff (a b : List (Value × Value)) :
    matchedByScan a b = true ↔ ∀ e ∈ a, ∃ f ∈ b, f.1.same e.1 = true ∧ f.2.same e.2 = true := by
  simp only [matchedByScan, List.all_eq_true, List.any_eq_true, Bool.and_eq_true]

/-- An index finds what going through the entries finds. -/
theorem matchedByIndex_iff {index : Std.HashMap Key Nat} {b : List (Value × Value)}
    (h : index? b = some index) (a : List (Value × Value)) :
    matchedByIndex index a b = true ↔
      ∀ e ∈ a, ∃ f ∈ b, f.1.same e.1 = true ∧ f.2.same e.2 = true := by
  rw [matchedByIndex, List.all_eq_true]
  refine forall₂_congr fun e _ => ?_
  constructor
  · intro hmatched
    cases hfound : lookup? index b e.1 with
    | none => simp [hfound] at hmatched
    | some f =>
      obtain ⟨hf, hkey⟩ := (lookup?_eq_some_iff h).mp hfound
      exact ⟨f, hf, hkey, by simpa [hfound] using hmatched⟩
  · rintro ⟨f, hf, hkey, hvalue⟩
    simp only [(lookup?_eq_some_iff h).mpr ⟨hf, hkey⟩, hvalue]

/-- Two dicts are equal if they are equally long and each entry of the first has an equal in the
second. -/
theorem sameEntries_iff (a b : List (Value × Value)) :
    sameEntries a b = true ↔
      a.length = b.length ∧ ∀ e ∈ a, ∃ f ∈ b, f.1.same e.1 = true ∧ f.2.same e.2 = true := by
  rw [sameEntries_eq_matched, Bool.and_eq_true, beq_iff_eq]
  refine and_congr_right fun _ => ?_
  split
  next index hindex => exact matchedByIndex_iff hindex a
  next => exact matchedByScan_iff a b

theorem sizeOf_lt_of_mem_entries {e : Value × Value} {entries : List (Value × Value)}
    (h : e ∈ entries) : sizeOf e.1 < sizeOf entries ∧ sizeOf e.2 < sizeOf entries := by
  obtain ⟨k, v⟩ := e
  have hlt := List.sizeOf_lt_of_mem h
  simp only [Prod.mk.sizeOf_spec] at hlt
  exact ⟨by dsimp only; omega, by dsimp only; omega⟩

-- The induction is on the sizes of all three values: inside a dict they change their places.
mutual

theorem same_trans {a b c : Value} (hab : a.same b = true) (hbc : b.same c = true) :
    a.same c = true := by
  cases hc : c.key? with
  | some k =>
    have hb := (same_iff_of_key? hc).mp hbc
    exact (same_iff_of_key? hc).mpr ((key?_eq_of_same hab).trans hb)
  | none =>
    have ha := (key?_eq_of_same hab).trans ((key?_eq_of_same hbc).trans hc)
    obtain ⟨as, bs, rfl, rfl, hitems⟩ | ⟨as, bs, rfl, rfl, hitems⟩ | ⟨as, bs, rfl, rfl, hentries⟩ |
      ⟨bytes, rfl, rfl⟩ := same_cases hab ha
    · cases c with
      | tuple cs =>
        rw [same] at hbc ⊢
        exact sameItems_trans hitems hbc
      | _ => simp [same] at hbc
    · cases c with
      | list cs =>
        rw [same] at hbc ⊢
        exact sameItems_trans hitems hbc
      | _ => simp [same] at hbc
    · cases c with
      | dict cs =>
        rw [same] at hbc ⊢
        exact sameEntries_trans hentries hbc
      | _ => simp [same] at hbc
    · exact hbc
termination_by sizeOf a + sizeOf b + sizeOf c

theorem sameItems_trans {as bs cs : List Value} (hab : sameItems as bs = true)
    (hbc : sameItems bs cs = true) : sameItems as cs = true := by
  match as, bs with
  | [], [] => exact hbc
  | [], _ :: _ | _ :: _, [] => simp [sameItems] at hab
  | a :: as, b :: bs =>
    match cs with
    | [] => simp [sameItems] at hbc
    | c :: cs =>
      rw [sameItems, Bool.and_eq_true] at hab hbc ⊢
      exact ⟨same_trans hab.1 hbc.1, sameItems_trans hab.2 hbc.2⟩
termination_by sizeOf as + sizeOf bs + sizeOf cs

theorem sameEntries_trans {as bs cs : List (Value × Value)} (hab : sameEntries as bs = true)
    (hbc : sameEntries bs cs = true) : sameEntries as cs = true := by
  rw [sameEntries_iff] at hab hbc ⊢
  refine ⟨hab.1.trans hbc.1, fun e he => ?_⟩
  obtain ⟨f, hf, hfkey, hfvalue⟩ := hab.2 e he
  obtain ⟨g, hg, hgkey, hgvalue⟩ := hbc.2 f hf
  exact ⟨g, hg, same_trans hgkey hfkey, same_trans hgvalue hfvalue⟩
termination_by sizeOf as + sizeOf bs + sizeOf cs
decreasing_by
  all_goals
    have hesize := sizeOf_lt_of_mem_entries he
    have hfsize := sizeOf_lt_of_mem_entries hf
    have hgsize := sizeOf_lt_of_mem_entries hg
    omega

end

/-- No dict in the value has two entries with equal keys. -/
inductive KeysApart : Value → Prop
  | null : KeysApart .null
  | bool (b : Bool) : KeysApart (.bool b)
  | int (n : Int64) : KeysApart (.int n)
  | float (x : Binary64) : KeysApart (.float x)
  | str (text : String) : KeysApart (.str text)
  | blob (bytes : ByteArray) : KeysApart (.blob bytes)
  | tuple {items : List Value} (h : ∀ item ∈ items, KeysApart item) : KeysApart (.tuple items)
  | list {items : List Value} (h : ∀ item ∈ items, KeysApart item) : KeysApart (.list items)
  | dict {entries : List (Value × Value)}
      (keys : ∀ e ∈ entries, KeysApart e.1) (values : ∀ e ∈ entries, KeysApart e.2)
      (apart : entries.Pairwise fun e f => (e.1 == f.1) = false) : KeysApart (.dict entries)

mutual

theorem same_symm {a b : Value} (ha : a.KeysApart) (hb : b.KeysApart) (h : a.same b = true) :
    b.same a = true := by
  cases hkey : a.key? with
  | some k => exact (same_iff_of_key? hkey).mpr ((key?_eq_of_same h).symm.trans hkey)
  | none =>
    obtain ⟨as, bs, rfl, rfl, hitems⟩ | ⟨as, bs, rfl, rfl, hitems⟩ | ⟨as, bs, rfl, rfl, hentries⟩ |
      ⟨bytes, rfl, rfl⟩ := same_cases h hkey
    · cases ha with | tuple ha =>
      cases hb with | tuple hb =>
      rw [same]
      exact sameItems_symm ha hb hitems
    · cases ha with | list ha =>
      cases hb with | list hb =>
      rw [same]
      exact sameItems_symm ha hb hitems
    · cases ha with | dict hakeys havalues hapart =>
      cases hb with | dict hbkeys hbvalues _ =>
      rw [same]
      exact sameEntries_symm hakeys havalues hbkeys hbvalues hapart hentries
    · exact h
termination_by sizeOf a + sizeOf b

theorem sameItems_symm {as bs : List Value} (ha : ∀ a ∈ as, a.KeysApart)
    (hb : ∀ b ∈ bs, b.KeysApart) (h : sameItems as bs = true) : sameItems bs as = true := by
  match as, bs with
  | [], [] => exact h
  | [], _ :: _ | _ :: _, [] => simp [sameItems] at h
  | a :: as, b :: bs =>
    obtain ⟨hafirst, harest⟩ := List.forall_mem_cons.mp ha
    obtain ⟨hbfirst, hbrest⟩ := List.forall_mem_cons.mp hb
    rw [sameItems, Bool.and_eq_true] at h ⊢
    exact ⟨same_symm hafirst hbfirst h.1, sameItems_symm harest hbrest h.2⟩
termination_by sizeOf as + sizeOf bs

theorem sameEntries_symm {as bs : List (Value × Value)}
    (hakeys : ∀ e ∈ as, e.1.KeysApart) (havalues : ∀ e ∈ as, e.2.KeysApart)
    (hbkeys : ∀ f ∈ bs, f.1.KeysApart) (hbvalues : ∀ f ∈ bs, f.2.KeysApart)
    (hkeys : as.Pairwise fun e e' => (e.1 == e'.1) = false) (h : sameEntries as bs = true) :
    sameEntries bs as = true := by
  rw [sameEntries_iff] at h ⊢
  obtain ⟨hlength, hmatch⟩ := h
  refine ⟨hlength.symm, fun f hf => ?_⟩
  -- Two entries with the same partner would have equal keys, through the key of the partner.
  have hapart : as.Pairwise fun e e' => ∀ f ∈ bs, f.1.same e.1 = true ∧ f.2.same e.2 = true →
      ¬(f.1.same e'.1 = true ∧ f.2.same e'.2 = true) := by
    refine hkeys.imp_of_mem fun {e e'} he _ hne f hf hfe hfe' => ?_
    have hef := same_symm (hbkeys f hf) (hakeys e he) hfe.1
    have hee' : (e.1 == e'.1) = true := same_trans hef hfe'.1
    rw [hne] at hee'
    cases hee'
  obtain ⟨e, he, hkey, hvalue⟩ := exists_partner_of_length_eq hlength hmatch hapart f hf
  exact ⟨e, he, same_symm (hbkeys f hf) (hakeys e he) hkey,
    same_symm (hbvalues f hf) (havalues e he) hvalue⟩
termination_by sizeOf as + sizeOf bs
decreasing_by
  all_goals
    have he := sizeOf_lt_of_mem_entries he
    have hf := sizeOf_lt_of_mem_entries hf
    omega

end

/-- Equality is transitive. It is symmetric where no dict has two entries with equal keys. -/
theorem beq_symm_trans (a b c : Value) :
    (a.KeysApart → b.KeysApart → (a == b) = (b == a)) ∧
      ((a == b) = true → (b == c) = true → (a == c) = true) := by
  refine ⟨fun ha hb => ?_, same_trans⟩
  rw [Bool.eq_iff_iff]
  exact ⟨same_symm ha hb, same_symm hb ha⟩

/-- An entry under null, followed by one under the number one. -/
def nullThenOne : Value := .dict [(.null, .null), (.int 1, .null)]

/-- The same entries in the other order. -/
def oneThenNull : Value := .dict [(.int 1, .null), (.null, .null)]

/-- Two entries under null. -/
def nullTwice : Value := .dict [(.null, .null), (.null, .null)]

/-- Each entry under a repeated key has a partner, but the second entry of the partner has none. -/
theorem not_beq_comm_nullTwice :
    (nullTwice == nullThenOne) = true ∧ (nullThenOne == nullTwice) = false := by
  constructor
  · simp [nullTwice, nullThenOne, beq_eq_same, same, sameEntries_iff]
  · rw [Bool.eq_false_iff]
    simp [nullTwice, nullThenOne, beq_eq_same, same, sameEntries_iff]

theorem beq_symm_trans_nullThenOne :
    (nullThenOne == oneThenNull) = (oneThenNull == nullThenOne) ∧
      (nullTwice == nullThenOne) = true ∧ (nullThenOne == oneThenNull) = true ∧
      (nullTwice == oneThenNull) = true := by
  have htwice : (nullTwice == nullThenOne) = true := by
    simp [nullTwice, nullThenOne, beq_eq_same, same, sameEntries_iff]
  have hsame : (nullThenOne == oneThenNull) = true := by
    simp [nullThenOne, oneThenNull, beq_eq_same, same, sameEntries_iff]
  have hapart : nullThenOne.KeysApart :=
    .dict (by simp [KeysApart.null, KeysApart.int]) (by simp [KeysApart.null])
      (by simp [beq_eq_same, same])
  have hapart' : oneThenNull.KeysApart :=
    .dict (by simp [KeysApart.null, KeysApart.int]) (by simp [KeysApart.null])
      (by simp [beq_eq_same, same])
  exact ⟨(beq_symm_trans _ _ nullTwice).1 hapart hapart', htwice, hsame,
    (beq_symm_trans _ _ _).2 htwice hsame⟩

end Value

theorem Value.IsHalf.keysApart {lossy : Prop} {v : Value} (h : v.IsHalf lossy) : v.KeysApart := by
  rcases h with h | ⟨_, rfl⟩
  · cases v with
    | bool b => exact .bool b
    | int n => exact .int n
    | float x => exact .float x
    | str text => exact .str text
    | _ => cases h
  · exact .null

mutual

/-- What a decoder returns repeats no keys, so equality is symmetric on it. -/
theorem Conforms.keysApart {lossy : Prop} {schema : Schema} {value : Value}
    (h : Conforms lossy schema value) : value.KeysApart := by
  cases h with
  | bool b => exact .bool b
  | int n => exact .int n
  | float x => exact .float x
  | str text => exact .str text
  | blob bytes => exact .blob bytes
  | null | none => exact .null
  | emptyTuple => exact .tuple (List.forall_mem_nil _)
  | emptyList => exact .list (List.forall_mem_nil _)
  | emptyDict => exact .dict (List.forall_mem_nil _) (List.forall_mem_nil _) .nil
  | tuple hitems => exact .tuple (keysApart_items hitems)
  | list hitems => exact .list fun item hitem => (hitems item hitem).keysApart
  | lostList hlossy hstored hwidth count =>
    refine .list fun item hitem => ?_
    obtain rfl := List.eq_of_mem_replicate hitem
    exact .null
  | dict halves keys =>
    exact .dict (fun e he => (halves e he).1.keysApart) (fun e he => (halves e he).2.keysApart)
      (keys.imp And.left)
  | some h => exact h.keysApart

theorem Conforms.keysApart_items {lossy : Prop} {fields : List Schema} {items : List Value}
    (h : List.Forall₂ (Conforms lossy) fields items) : ∀ item ∈ items, item.KeysApart := by
  cases h with
  | nil => exact List.forall_mem_nil _
  | cons hfirst hrest => exact List.forall_mem_cons.mpr ⟨hfirst.keysApart, keysApart_items hrest⟩

end

end RowFormat
