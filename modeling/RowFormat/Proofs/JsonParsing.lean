import RowFormat.Proofs.JsonLexing

namespace RowFormat

namespace Json

section

variable {α β γ : Type} {c place : JsonCursor} {value : α}

/-- Whether a value was read, and the place after it. -/
def Yields (parsed : Except JsonError (Parsed α c)) (value : α) (place : JsonCursor) : Prop :=
  ∃ p, parsed = .ok p ∧ p.value = value ∧ p.place = place

theorem Yields.le {parsed : Except JsonError (Parsed α c)} (h : Yields parsed value place) :
    place.rest.length ≤ c.rest.length := by
  obtain ⟨p, _, _, rfl⟩ := h
  exact p.le

@[simp] theorem yields_error {e : JsonError} :
    ¬Yields (.error e : Except JsonError (Parsed α c)) value place := by
  rintro ⟨p, h, _⟩
  cases h

@[simp] theorem yields_ok_iff {p : Parsed α c} :
    Yields (.ok p) value place ↔ p.value = value ∧ p.place = place := by
  constructor
  · rintro ⟨_, h, hp⟩
    cases h
    exact hp
  · exact fun h => ⟨p, rfl, h⟩

theorem yields_map_iff {first : JsonCursor} {read : Except JsonError (Parsed α first)} (f : α → β)
    {mapped : β} (hle : ∀ p : Parsed α first, p.place.rest.length ≤ c.rest.length) :
    Yields (read >>= fun p => (.ok ⟨f p.value, p.place, hle p⟩ : Except JsonError (Parsed β c)))
      mapped place ↔ ∃ x, Yields read x place ∧ f x = mapped := by
  cases read with
  | error e => simp [bind, Except.bind]
  | ok p =>
    refine yields_ok_iff.trans ⟨?_, ?_⟩
    · rintro ⟨hf, rfl⟩
      exact ⟨_, yields_ok_iff.mpr ⟨rfl, rfl⟩, hf⟩
    · rintro ⟨x, hread, hf⟩
      obtain ⟨rfl, rfl⟩ := yields_ok_iff.mp hread
      exact ⟨hf, rfl⟩

/-- One value is read after another, and the two are joined. -/
theorem yields_both_iff {first : JsonCursor} {read : Except JsonError (Parsed α first)}
    (readMore : (mid : JsonCursor) → Except JsonError (Parsed β mid)) (join : α → β → γ) {joined : γ}
    (hle : ∀ (p : Parsed α first) (q : Parsed β p.place), q.place.rest.length ≤ c.rest.length) :
    Yields (read >>= fun p => readMore p.place >>= fun q =>
        (.ok ⟨join p.value q.value, q.place, hle p q⟩ : Except JsonError (Parsed γ c)))
      joined place ↔
    ∃ x mid y, Yields read x mid ∧ Yields (readMore mid) y place ∧ join x y = joined := by
  cases read with
  | error e => simp [bind, Except.bind]
  | ok p =>
    refine (yields_map_iff (join p.value) (hle p)).trans ⟨?_, ?_⟩
    · rintro ⟨y, hmore, hjoin⟩
      exact ⟨_, _, y, yields_ok_iff.mpr ⟨rfl, rfl⟩, hmore, hjoin⟩
    · rintro ⟨_, _, y, hread, hmore, hjoin⟩
      obtain ⟨rfl, rfl⟩ := yields_ok_iff.mp hread
      exact ⟨y, hmore, hjoin⟩

/-- The parts of a container behind its opening: its end, or a first part and the rest. -/
def ReadsParts (close : JsonToken)
    (read : JsonToken → (b : JsonCursor) → Except JsonError (Parsed α b))
    (readRest : (b : JsonCursor) → Except JsonError (Parsed (List α) b)) (c : JsonCursor)
    (parts : List α) (place : JsonCursor) : Prop :=
  (c.next = .ok (some (close, place)) ∧ parts = []) ∨
    ∃ first after, c.next = .ok (some (first, after)) ∧ first ≠ close ∧
      ∃ part mid rest, Yields (read first after) part mid ∧ Yields (readRest mid) rest place ∧
        part :: rest = parts

/-- The parts behind another one: the end of the container, or a comma, a part and the rest. -/
def ReadsRest (close : JsonToken)
    (read : JsonToken → (b : JsonCursor) → Except JsonError (Parsed α b))
    (readRest : (b : JsonCursor) → Except JsonError (Parsed (List α) b)) (c : JsonCursor)
    (parts : List α) (place : JsonCursor) : Prop :=
  (c.next = .ok (some (close, place)) ∧ parts = []) ∨
    ∃ comma first after, c.next = .ok (some (.comma, comma)) ∧
      comma.next = .ok (some (first, after)) ∧
      ∃ part mid rest, Yields (read first after) part mid ∧ Yields (readRest mid) rest place ∧
        part :: rest = parts

variable {close first : JsonToken} {after : JsonCursor} {parts : List α}
  {read : JsonToken → (b : JsonCursor) → Except JsonError (Parsed α b)}
  {readRest : (b : JsonCursor) → Except JsonError (Parsed (List α) b)}

theorem readsParts_of_close (h : c.next = .ok (some (close, after))) :
    ReadsParts close read readRest c parts place ↔ parts = [] ∧ after = place := by
  constructor
  · rintro (⟨hnext, hparts⟩ | ⟨_, _, hnext, hne, _⟩)
    · cases h.symm.trans hnext
      exact ⟨hparts, rfl⟩
    · cases h.symm.trans hnext
      exact absurd rfl hne
  · rintro ⟨hparts, rfl⟩
    exact .inl ⟨h, hparts⟩

theorem readsParts_of_first (h : c.next = .ok (some (first, after))) (hne : first ≠ close) :
    ReadsParts close read readRest c parts place ↔
      ∃ part mid rest, Yields (read first after) part mid ∧ Yields (readRest mid) rest place ∧
        part :: rest = parts := by
  constructor
  · rintro (⟨hnext, _⟩ | ⟨_, _, hnext, _, hparts⟩)
    · cases h.symm.trans hnext
      exact absurd rfl hne
    · cases h.symm.trans hnext
      exact hparts
  · exact fun hparts => .inr ⟨first, after, h, hne, hparts⟩

theorem readsRest_of_close (h : c.next = .ok (some (close, after))) (hcomma : close ≠ .comma) :
    ReadsRest close read readRest c parts place ↔ parts = [] ∧ after = place := by
  constructor
  · rintro (⟨hnext, hparts⟩ | ⟨_, _, _, hnext, _⟩)
    · cases h.symm.trans hnext
      exact ⟨hparts, rfl⟩
    · cases h.symm.trans hnext
      exact absurd rfl hcomma
  · rintro ⟨hparts, rfl⟩
    exact .inl ⟨h, hparts⟩

theorem readsRest_of_comma {comma : JsonCursor} (h : c.next = .ok (some (.comma, comma)))
    (hcomma : close ≠ .comma) :
    ReadsRest close read readRest c parts place ↔
      ∃ first after, comma.next = .ok (some (first, after)) ∧
        ∃ part mid rest, Yields (read first after) part mid ∧ Yields (readRest mid) rest place ∧
          part :: rest = parts := by
  constructor
  · rintro (⟨hnext, _⟩ | ⟨_, first, after, hnext, hparts⟩)
    · cases h.symm.trans hnext
      exact absurd rfl hcomma
    · cases h.symm.trans hnext
      exact ⟨first, after, hparts⟩
  · rintro ⟨first, after, hparts⟩
    exact .inr ⟨comma, first, after, h, hparts⟩

theorem not_readsRest_of_other (h : c.next = .ok (some (first, after))) (hne : first ≠ close)
    (hcomma : first ≠ .comma) : ¬ReadsRest close read readRest c parts place := by
  rintro (⟨hnext, _⟩ | ⟨_, _, _, hnext, _⟩)
  · cases h.symm.trans hnext
    exact hne rfl
  · cases h.symm.trans hnext
    exact hcomma rfl

end

variable {limit depth : Nat} {c place : JsonCursor}

theorem parseItems_yields_iff {items : List Json} :
    Yields (parseItems limit depth c) items place ↔
      ReadsRest .arrayEnd (parseValue limit depth) (parseItems limit depth) c items place := by
  rw [parseItems]
  split
  · next e hnext => simp [ReadsRest, hnext]
  · next hnext => simp [ReadsRest, hnext]
  · next after hnext => simp [readsRest_of_close hnext, eq_comm]
  · next comma hcomma =>
    rw [readsRest_of_comma hcomma (by simp)]
    split
    · next e hfirst => simp [hfirst]
    · next hfirst => simp [hfirst]
    · next first after hfirst =>
      refine (yields_both_iff (parseItems limit depth) List.cons _).trans
        ⟨fun h => ⟨first, after, hfirst, h⟩, ?_⟩
      rintro ⟨_, _, hnext, h⟩
      cases hfirst.symm.trans hnext
      exact h
  · next other after hclose hcomma hnext =>
    exact ⟨fun h => absurd h yields_error,
      fun h => absurd h (not_readsRest_of_other hnext hclose hcomma)⟩

theorem parseEntry_yields_iff {t : JsonToken} {entry : String × Json} :
    Yields (parseEntry limit depth t c) entry place ↔
      ∃ key colon first after value, t = .string key ∧ c.next = .ok (some (.colon, colon)) ∧
        colon.next = .ok (some (first, after)) ∧
        Yields (parseValue limit depth first after) value place ∧ (key, value) = entry := by
  rw [parseEntry.eq_def]
  split
  · next key =>
    split
    · next e hnext => simp [hnext]
    · next hnext => simp [hnext]
    · next colon hcolon =>
      split
      · next e hfirst => simp [hcolon, hfirst]
      · next hfirst => simp [hcolon, hfirst]
      · next first after hfirst =>
        refine (yields_map_iff (fun value => (key, value)) _).trans ⟨?_, ?_⟩
        · rintro ⟨value, h, hentry⟩
          exact ⟨key, colon, first, after, value, rfl, hcolon, hfirst, h, hentry⟩
        · rintro ⟨_, _, _, _, value, hkey, hnext, hnext', h, hentry⟩
          cases hkey
          cases hcolon.symm.trans hnext
          cases hfirst.symm.trans hnext'
          exact ⟨value, h, hentry⟩
    · next other after hcolon hnext =>
      refine ⟨fun h => absurd h yields_error, ?_⟩
      rintro ⟨_, _, _, _, _, _, hnext', _⟩
      cases hnext.symm.trans hnext'
      exact absurd rfl hcolon
  · next hkey =>
    refine ⟨fun h => absurd h yields_error, ?_⟩
    rintro ⟨key, _, _, _, _, ht, _⟩
    exact absurd ht (hkey key)

theorem parseEntries_yields_iff {entries : List (String × Json)} :
    Yields (parseEntries limit depth c) entries place ↔
      ReadsRest .objectEnd (parseEntry limit depth) (parseEntries limit depth) c entries place := by
  rw [parseEntries]
  split
  · next e hnext => simp [ReadsRest, hnext]
  · next hnext => simp [ReadsRest, hnext]
  · next after hnext => simp [readsRest_of_close hnext, eq_comm]
  · next comma hcomma =>
    rw [readsRest_of_comma hcomma (by simp)]
    split
    · next e hfirst => simp [hfirst]
    · next hfirst => simp [hfirst]
    · next first after hfirst =>
      refine (yields_both_iff (parseEntries limit depth) List.cons _).trans
        ⟨fun h => ⟨first, after, hfirst, h⟩, ?_⟩
      rintro ⟨_, _, hnext, h⟩
      cases hfirst.symm.trans hnext
      exact h
  · next other after hclose hcomma hnext =>
    exact ⟨fun h => absurd h yields_error,
      fun h => absurd h (not_readsRest_of_other hnext hclose hcomma)⟩

theorem yields_checkDepth_iff {α : Type} {position : Nat} {value : α}
    {f : Unit → Except JsonError (Parsed α c)} :
    Yields (checkDepth limit depth position >>= f) value place ↔
      depth ≤ limit ∧ Yields (f ()) value place := by
  unfold checkDepth
  split
  · next hdepth => exact (and_iff_right hdepth).symm
  · next hdepth => exact ⟨fun h => absurd h yields_error, fun h => absurd h.1 hdepth⟩

theorem parseValue_arrayStart_yields_iff {v : Json} :
    Yields (parseValue limit depth .arrayStart c) v place ↔
      depth + 1 ≤ limit ∧ ∃ items,
        ReadsParts .arrayEnd (parseValue limit (depth + 1)) (parseItems limit (depth + 1)) c items place ∧
          .array items = v := by
  rw [parseValue, yields_checkDepth_iff]
  refine and_congr_right fun _ => ?_
  split
  · next e hnext => simp [ReadsParts, hnext]
  · next hnext => simp [ReadsParts, hnext]
  · next first after hnext =>
    split
    · next hclose =>
      subst hclose
      simp [readsParts_of_close hnext, and_assoc, and_comm]
    · next hclose =>
      simp only [readsParts_of_first hnext hclose]
      refine (yields_both_iff (parseItems limit (depth + 1))
        (fun item rest => Json.array (item :: rest)) _).trans ⟨?_, ?_⟩
      · rintro ⟨item, mid, rest, h, hrest, hv⟩
        exact ⟨_, ⟨item, mid, rest, h, hrest, rfl⟩, hv⟩
      · rintro ⟨_, ⟨item, mid, rest, h, hrest, rfl⟩, hv⟩
        exact ⟨item, mid, rest, h, hrest, hv⟩

theorem parseValue_objectStart_yields_iff {v : Json} :
    Yields (parseValue limit depth .objectStart c) v place ↔
      depth + 1 ≤ limit ∧ ∃ entries,
        ReadsParts .objectEnd (parseEntry limit (depth + 1)) (parseEntries limit (depth + 1)) c entries place ∧
          .object entries = v := by
  rw [parseValue, yields_checkDepth_iff]
  refine and_congr_right fun _ => ?_
  split
  · next e hnext => simp [ReadsParts, hnext]
  · next hnext => simp [ReadsParts, hnext]
  · next first after hnext =>
    split
    · next hclose =>
      subst hclose
      simp [readsParts_of_close hnext, and_assoc, and_comm]
    · next hclose =>
      simp only [readsParts_of_first hnext hclose]
      refine (yields_both_iff (parseEntries limit (depth + 1))
        (fun entry rest => Json.object (entry :: rest)) _).trans ⟨?_, ?_⟩
      · rintro ⟨entry, mid, rest, h, hrest, hv⟩
        exact ⟨_, ⟨entry, mid, rest, h, hrest, rfl⟩, hv⟩
      · rintro ⟨_, ⟨entry, mid, rest, h, hrest, rfl⟩, hv⟩
        exact ⟨entry, mid, rest, h, hrest, hv⟩

end Json

end RowFormat
