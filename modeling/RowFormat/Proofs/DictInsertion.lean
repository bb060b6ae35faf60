import RowFormat.Proofs.DictTable
import Mathlib.Data.List.Forall2

namespace RowFormat

theorem Binary64.isNaN_of_isZero {x : Binary64} (h : x.isZero = true) : x.isNaN = false := by
  rw [isZero, beq_iff_eq] at h
  rw [isNaN, h]
  decide

namespace Value

/-- Either zero of the floats. -/
def isZero : Value → Bool
  | .float x => x.isZero
  | _ => false

def isNaN : Value → Bool
  | .float x => x.isNaN
  | _ => false

/-- The entries under the keys that a predicate picks, in their order. -/
def under (p : Value → Bool) (entries : List (Value × Value)) : List (Value × Value) :=
  entries.filter fun e => p e.1

/-- What insertions under equal keys leave: the first key with the last value. -/
def merge : List (Value × Value) → List (Value × Value)
  | [] => []
  | e :: entries => [(e.1, (entries.getLastD e).2)]

variable {p : Value → Bool} {e : Value × Value} {stored inserts : List (Value × Value)}

theorem under_cons_of_pos (h : p e.1 = true) : under p (e :: stored) = e :: under p stored :=
  List.filter_cons_of_pos h

theorem under_cons_of_neg (h : ¬ p e.1 = true) : under p (e :: stored) = under p stored :=
  List.filter_cons_of_neg h

theorem key_of_mem_under (h : e ∈ under p stored) : p e.1 = true := by
  simpa using (List.mem_filter.mp h).2

theorem under_insertEntry (hp : ∀ k l, (k == l) = true → p k = p l)
    (stored : List (Value × Value)) (key value : Value) :
    under p (insertEntry stored key value) =
      if p key then insertEntry (under p stored) key value else under p stored := by
  induction stored with
  | nil => simp [insertEntry, under, List.filter_cons]
  | cons e stored ih =>
    obtain ⟨k, v⟩ := e
    rw [insertEntry]
    by_cases hk : (k == key) = true
    · have hpk := hp k key hk
      rw [if_pos hk]
      by_cases hkey : p key = true
      · rw [under_cons_of_pos (hpk.trans hkey), under_cons_of_pos (hpk.trans hkey), if_pos hkey,
          insertEntry, if_pos hk]
      · rw [under_cons_of_neg (hpk ▸ hkey), under_cons_of_neg (hpk ▸ hkey), if_neg hkey]
    · rw [if_neg hk]
      by_cases hpk : p k = true
      · rw [under_cons_of_pos hpk, under_cons_of_pos hpk, ih, insertEntry, if_neg hk]
        split
        next => rfl
        next => rfl
      · rw [under_cons_of_neg hpk, under_cons_of_neg hpk, ih]

/-- What is stored under some keys is due to the insertions under them alone, if no other key equals
one of them. -/
theorem under_insertAll (hp : ∀ k l, (k == l) = true → p k = p l)
    (stored inserts : List (Value × Value)) :
    under p (insertAll stored inserts) = insertAll (under p stored) (under p inserts) := by
  induction inserts generalizing stored with
  | nil => rfl
  | cons e inserts ih =>
    refine (ih (insertEntry stored e.1 e.2)).trans ?_
    rw [under_insertEntry hp]
    by_cases he : p e.1 = true
    · rw [if_pos he, under_cons_of_pos he]
      rfl
    · rw [if_neg he, under_cons_of_neg he]

theorem insertAll_singleton {first : Value} (h : ∀ e ∈ inserts, (first == e.1) = true)
    (value : Value) :
    insertAll [(first, value)] inserts = [(first, (inserts.getLastD (first, value)).2)] := by
  induction inserts generalizing value with
  | nil => rfl
  | cons e inserts ih =>
    obtain ⟨he, hrest⟩ := List.forall_mem_cons.mp h
    have hstep : insertEntry [(first, value)] e.1 e.2 = [(first, e.2)] := by
      rw [insertEntry, if_pos he]
    have hvalue : (inserts.getLastD (first, e.2)).2 = (inserts.getLastD e).2 := by
      cases inserts with
      | nil => rfl
      | cons f inserts => rfl
    calc insertAll [(first, value)] (e :: inserts)
        = insertAll (insertEntry [(first, value)] e.1 e.2) inserts := rfl
      _ = [(first, (inserts.getLastD (first, e.2)).2)] := by rw [hstep, ih hrest]
      _ = [(first, ((e :: inserts).getLastD (first, value)).2)] := by
        rw [hvalue, List.getLastD_cons]

/-- Keys that are indexed alike leave one entry. -/
theorem under_insertAll_of_key {c : Key} (hp : ∀ k, p k = true ↔ k.key? = some c)
    (inserts : List (Value × Value)) :
    under p (insertAll [] inserts) = merge (under p inserts) := by
  have hclosed (k l : Value) (h : (k == l) = true) : p k = p l := by
    rw [Bool.eq_iff_iff, hp, hp, key?_eq_of_same h]
  refine (under_insertAll hclosed [] inserts).trans ?_
  have hkeys (e : Value × Value) (he : e ∈ under p inserts) : p e.1 = true := key_of_mem_under he
  cases hentries : under p inserts with
  | nil => rfl
  | cons e entries =>
    rw [hentries] at hkeys
    obtain ⟨he, hrest⟩ := List.forall_mem_cons.mp hkeys
    have hequal (f : Value × Value) (hf : f ∈ entries) : (e.1 == f.1) = true :=
      (same_iff_of_key? ((hp f.1).mp (hrest f hf))).mpr ((hp e.1).mp he)
    exact insertAll_singleton hequal e.2

/-- Keys that equal nothing leave all of their entries. -/
theorem under_insertAll_of_apart (hleft : ∀ k l, p k = true → (k == l) = false)
    (hright : ∀ k l, p l = true → (k == l) = false) (inserts : List (Value × Value)) :
    under p (insertAll [] inserts) = under p inserts := by
  have hclosed (k l : Value) (h : (k == l) = true) : p k = p l := by
    have hk : p k = false := Bool.eq_false_iff.mpr fun hk => by simp [hleft k l hk] at h
    have hl : p l = false := Bool.eq_false_iff.mpr fun hl => by simp [hright k l hl] at h
    rw [hk, hl]
  refine (under_insertAll hclosed [] inserts).trans (insertAll_of_apart ?_)
  have hkeys (e : Value × Value) (he : e ∈ under p inserts) : p e.1 = true := key_of_mem_under he
  exact List.pairwise_iff_getElem.mpr fun i j hi hj _ => hleft _ _ (hkeys _ (List.getElem_mem hi))

theorem isNull_iff {k : Value} : k.isNull = true ↔ k.key? = some .null := by
  cases k with
  | float x => simp [isNull, key?_float_eq_some_iff]
  | _ => simp [isNull, key?]

theorem isZero_iff {k : Value} : k.isZero = true ↔ k.key? = some (.float Binary64.zero.bits) := by
  cases k with
  | float x =>
    rw [isZero, key?_float_eq_some_iff, Key.float.injEq]
    constructor
    · intro hzero
      exact ⟨Binary64.isNaN_of_isZero hzero, if_pos hzero⟩
    · rintro ⟨-, hbits⟩
      by_contra hzero
      rw [if_neg hzero] at hbits
      obtain rfl : x = Binary64.zero := congrArg Binary64.mk hbits
      exact hzero (by decide)
  | _ => simp [isZero, key?]

theorem beq_eq_false_of_isNaN {k : Value} (hk : k.isNaN = true) (l : Value) :
    (k == l) = false ∧ (l == k) = false := by
  cases k with
  | float x =>
    have hhalf : (float x).IsHalf False := .inl rfl
    exact same_eq_false_of_key?_eq_none hhalf (if_pos hk) l
  | _ => cases hk

end Value

namespace Dict

/-- The bytes of a key are two tags and those of a literal. -/
def IsTagged (raw : List Char) (keyTag valueTag : UInt8) (literal : List Char) : Prop :=
  raw.flatMap String.utf8EncodeChar = keyTag :: valueTag :: literal.flatMap String.utf8EncodeChar

def keyKinds : List DiagnosticKind :=
  [.invalidBoolKey, .invalidIntKey, .invalidFloatKey, .unknownKeyTag]

def valueKinds : List DiagnosticKind := [.valueTypeMismatch, .unknownValueTag]

/-- What is reported of half of an entry: nothing if it was read, and one problem if it is null. -/
inductive HalfNotes (position : Nat) (kinds : List DiagnosticKind) : Value → Diagnostics → Prop
  | read {half : Value} : half.isScalar = true → HalfNotes position kinds half []
  | lost {kind : DiagnosticKind} {detail : String} : kind ∈ kinds →
      HalfNotes position kinds .null [⟨kind, position, detail⟩]

/-- What is reported of an entry: one problem if its key has no tags, else what is reported of the
key and then of the value. -/
inductive EntryNotes (position : Nat) (raw : String) : (Value × Value) × Diagnostics → Prop
  | malformed : (∀ keyTag valueTag literal, ¬ IsTagged raw.toList keyTag valueTag literal) →
      EntryNotes position raw
        ((.null, .null), [⟨.malformedKey, position, s!"dict key '{raw}' lacks type tags"⟩])
  | tagged {keyTag valueTag : UInt8} {literal : List Char} {key value : Value}
      {keyNotes valueNotes : Diagnostics} : IsTagged raw.toList keyTag valueTag literal →
      HalfNotes position keyKinds key keyNotes → HalfNotes position valueKinds value valueNotes →
      EntryNotes position raw ((key, value), keyNotes ++ valueNotes)

theorem flatMap_utf8EncodeChar_injective {cs ds : List Char}
    (h : cs.flatMap String.utf8EncodeChar = ds.flatMap String.utf8EncodeChar) : cs = ds := by
  have hbytes : (String.ofList cs).toByteArray = (String.ofList ds).toByteArray :=
    congrArg List.toByteArray h
  exact String.ofList_inj.mp (String.toByteArray_inj.mp hbytes)

theorem isUTF8FirstByte_iff {c : Char} {i : Nat} {b : UInt8}
    (h : (String.utf8EncodeChar c)[i]? = some b) : b.IsUTF8FirstByte ↔ i = 0 := by
  obtain ⟨hi, rfl⟩ := List.getElem?_eq_some_iff.mp h
  exact UInt8.isUTF8FirstByte_getElem_utf8EncodeChar

theorem isUTF8FirstByte_of_flatMap {cs : List Char} {b : UInt8} {bytes : List UInt8}
    (h : cs.flatMap String.utf8EncodeChar = b :: bytes) : b.IsUTF8FirstByte := by
  cases cs with
  | nil => cases h
  | cons c cs =>
    cases hc : String.utf8EncodeChar c with
    | nil => exact absurd hc String.utf8EncodeChar_ne_nil
    | cons first more =>
      rw [List.flatMap_cons, hc, List.cons_append] at h
      obtain ⟨rfl, -⟩ := List.cons.inj h
      exact (isUTF8FirstByte_iff (by rw [hc]; rfl)).mpr rfl

/-- Bytes that a text begins with and that end where a character begins are not a proper part of its
first character. -/
theorem utf8EncodeChar_eq_of_append {c : Char} {first : List UInt8} {rest literal : List Char}
    (h : String.utf8EncodeChar c ++ rest.flatMap String.utf8EncodeChar =
      first ++ literal.flatMap String.utf8EncodeChar)
    (hne : first ≠ []) (hlength : first.length ≤ (String.utf8EncodeChar c).length) :
    first = String.utf8EncodeChar c := by
  rcases List.append_eq_append_iff.mp h with ⟨more, hfirst, _⟩ | ⟨more, hc, hliteral⟩
  · rw [hfirst, List.length_append] at hlength
    have hmore : more = [] := List.eq_nil_of_length_eq_zero (by omega)
    rw [hfirst, hmore, List.append_nil]
  · cases more with
    | nil => rw [hc, List.append_nil]
    | cons b more =>
      -- The byte after `first` is inside a character, and none of the literal begins with it.
      have hinside : (String.utf8EncodeChar c)[first.length]? = some b := by
        rw [hc, List.getElem?_append_right (Nat.le_refl _), Nat.sub_self]
        rfl
      have hbegin := (isUTF8FirstByte_iff hinside).mp (isUTF8FirstByte_of_flatMap hliteral)
      exact absurd (List.eq_nil_of_length_eq_zero hbegin) hne

variable {raw literal : List Char} {keyTag valueTag : UInt8}

theorem isTagged_of_splitKey (h : splitKey raw = some (keyTag, valueTag, literal)) :
    IsTagged raw keyTag valueTag literal := by
  unfold splitKey at h
  split at h
  next => cases h
  next first rest =>
    split at h
    next hfirst =>
      cases h
      rw [IsTagged, List.flatMap_cons, hfirst]
      rfl
    next second more hfirst =>
      split at h
      next hsecond =>
        cases h
        rw [IsTagged, List.flatMap_cons, List.flatMap_cons, hfirst, hsecond]
        rfl
      next => cases h
    next => cases h

theorem splitKey_of_isTagged (h : IsTagged raw keyTag valueTag literal) :
    splitKey raw = some (keyTag, valueTag, literal) := by
  cases raw with
  | nil => cases h
  | cons first rest =>
    rw [IsTagged, List.flatMap_cons] at h
    cases hfirst : String.utf8EncodeChar first with
    | nil => exact absurd hfirst String.utf8EncodeChar_ne_nil
    | cons b more =>
      cases more with
      | cons b' more =>
        have htags : [keyTag, valueTag] = String.utf8EncodeChar first :=
          utf8EncodeChar_eq_of_append h (List.cons_ne_nil _ _) (by simp [hfirst])
        rw [← htags] at h
        obtain rfl := flatMap_utf8EncodeChar_injective (List.append_cancel_left h)
        simp only [splitKey, ← htags]
      | nil =>
        rw [hfirst, List.singleton_append, List.cons.injEq] at h
        obtain ⟨rfl, h⟩ := h
        cases rest with
        | nil => cases h
        | cons second rest =>
          rw [List.flatMap_cons, ← List.singleton_append] at h
          have hsecond : [valueTag] = String.utf8EncodeChar second :=
            utf8EncodeChar_eq_of_append h (List.cons_ne_nil _ _)
              (List.length_pos_of_ne_nil String.utf8EncodeChar_ne_nil)
          rw [← hsecond] at h
          obtain rfl := flatMap_utf8EncodeChar_injective (List.append_cancel_left h)
          simp only [splitKey, hfirst, ← hsecond]

/-- A key is split if and only if two tags and a literal are what its bytes spell. -/
theorem splitKey_eq_some_iff :
    splitKey raw = some (keyTag, valueTag, literal) ↔ IsTagged raw keyTag valueTag literal :=
  ⟨isTagged_of_splitKey, splitKey_of_isTagged⟩

variable {position : Nat} {raw : String}

theorem halfNotes_recover {kinds : List DiagnosticKind} {x : Except Complaint Value}
    (hread : ∀ v, x = .ok v → v.isScalar = true) (hlost : ∀ c, x = .error c → c.kind ∈ kinds) :
    HalfNotes position kinds (recover position x).1 (recover position x).2 := by
  cases x with
  | ok v => exact .read (hread v rfl)
  | error c => exact .lost (hlost c rfl)

theorem kind_of_readKey {tag : UInt8} {literal : List Char} {c : Complaint}
    (h : readKey tag literal raw = .error c) : c.kind ∈ keyKinds := by
  simp only [readKey] at h
  split at h
  next => cases h
  split at h
  next =>
    split at h
    next => cases h
    split at h
    next => cases h
    next => obtain rfl := Except.error.inj h; simp [keyKinds]
  split at h
  next =>
    split at h
    next => cases h
    next => obtain rfl := Except.error.inj h; simp [keyKinds]
  split at h
  next =>
    split at h
    next => cases h
    next => obtain rfl := Except.error.inj h; simp [keyKinds]
  next => obtain rfl := Except.error.inj h; simp [keyKinds]

theorem kind_of_readValue {tag : UInt8} {node : Json} {c : Complaint}
    (h : readValue tag node raw = .error c) : c.kind ∈ valueKinds := by
  unfold readValue at h
  split at h
  next => cases h
  next => obtain rfl := Except.error.inj h; simp [valueKinds]
  next => obtain rfl := Except.error.inj h; simp [valueKinds]

theorem entryNotes_readEntry (position : Nat) (raw : String) (node : Json) :
    EntryNotes position raw (readEntry position raw node) := by
  unfold readEntry
  split
  next hsplit =>
    refine .malformed fun keyTag valueTag literal htagged => ?_
    rw [splitKey_eq_some_iff.mpr htagged] at hsplit
    cases hsplit
  next keyTag valueTag literal hsplit =>
    refine .tagged (splitKey_eq_some_iff.mp hsplit) ?_ ?_
    · exact halfNotes_recover (fun _ => isScalar_of_readKey) fun _ => kind_of_readKey
    · exact halfNotes_recover (fun _ => isScalar_of_readValue) fun _ => kind_of_readValue

/-- Reading the entries of a dict inserts them one after the other into an empty one. The NaNs among
the keys stay apart, both zeros share an entry, and so do all keys that were lost. Each lost half is
reported once, in the order of the entries. -/
theorem readEntries_eq_filled (position : Nat) (members : List (String × Json)) :
    let halves := members.map fun (raw, node) => readEntry position raw node
    let inserts := halves.map Prod.fst
    let entries := (readEntries position members).1
    .dict entries = Value.filled inserts ∧
      Value.under Value.isNaN entries = Value.under Value.isNaN inserts ∧
      Value.under Value.isZero entries = Value.merge (Value.under Value.isZero inserts) ∧
      Value.under Value.isNull entries = Value.merge (Value.under Value.isNull inserts) ∧
      (readEntries position members).2 = halves.flatMap Prod.snd ∧
      List.Forall₂ (fun member half => EntryNotes position member.1 half) members halves := by
  intro halves inserts entries
  have hentries : entries = Value.insertAll [] inserts :=
    congrArg Prod.fst (readEntries_eq position members)
  rw [hentries]
  refine ⟨?_, ?_, ?_, ?_, rfl, ?_⟩
  · exact (Value.foldl_insert [] inserts).symm
  · exact Value.under_insertAll_of_apart (fun k l hk => (Value.beq_eq_false_of_isNaN hk l).1)
      (fun k l hl => (Value.beq_eq_false_of_isNaN hl k).2) inserts
  · exact Value.under_insertAll_of_key (fun _ => Value.isZero_iff) inserts
  · exact Value.under_insertAll_of_key (fun _ => Value.isNull_iff) inserts
  · refine List.forall₂_map_right_iff.mpr (List.forall₂_same.mpr fun member _ => ?_)
    exact entryNotes_readEntry position member.1 member.2

-- A NaN is not found again, while the other zero is, and so is the null of a lost key.
example : readEntries 0 [("fsnan", .string "a"), ("fs0.0", .string "b"), ("x", .string "c"),
    ("fsnan", .string "d"), ("fs-0.0", .string "e"), ("bsNo", .bool true)] =
    ([(.float ⟨0x7ff8000000000000⟩, .str "a"), (.float ⟨0⟩, .str "e"), (.null, .null),
      (.float ⟨0x7ff8000000000000⟩, .str "d")],
    [⟨.malformedKey, 0, "dict key 'x' lacks type tags"⟩,
      ⟨.invalidBoolKey, 0, "invalid boolean key 'No'"⟩,
      ⟨.valueTypeMismatch, 0, "value of 'bsNo' is a bool node, expected tag 's'"⟩]) := by
  cbv

end Dict

end RowFormat
