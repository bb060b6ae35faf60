import RowFormat.Proofs.Leaves

namespace RowFormat

/-- The bit and the slot that come next. -/
structure Place where
  bit : Nat
  offset : Nat

def Place.next (place : Place) (schema : Schema) : Place where
  bit := if schema.isOption then place.bit + 1 else place.bit
  offset := if schema.withoutOption.isZeroWidth then place.offset else place.offset + slotSize

def RowState.place (state : RowState) : Place := ⟨state.bit, state.offset⟩

/-- A row whose bitmap and slots have been found, inside a number of containers. -/
structure OpenRow where
  start : Span
  bitmap : NullBitmap
  fixed : Span
  depth : Nat

namespace Decoder

/-- Reads a field that is no tuple. -/
def readSlot (d : Decoder) (row : OpenRow) (schema : Schema) (path : Path) (place : Place) :
    Decoding (Value × Place) := do
  let slot ← .access (row.fixed.advance place.offset)
  let bit := if schema.isOption then some ⟨row.bitmap, place.bit⟩ else none
  let value ← (d.reader schema slot bit (row.depth + path.length)).within
    (Fault.field path schema slot.position)
  pure (value, place.next schema)

mutual

/-- Reads the field at `path`. -/
def readField (d : Decoder) (row : OpenRow) : Schema → Path → Place → Decoding (Value × Place)
  | .tuple (field :: fields), path, place => do
    .ofExcept (d.checkDepth (row.depth + path.length) row.start)
    let (items, place) ← readFields d row (field :: fields) path 0 place
    pure (.tuple items, place)
  | schema, path, place => d.readSlot row schema path place

/-- Reads some fields, the first of which has the given index under `path`. -/
def readFields (d : Decoder) (row : OpenRow) :
    List Schema → Path → Nat → Place → Decoding (List Value × Place)
  | [], _, _, place => pure ([], place)
  | field :: fields, path, i, place => do
    let (item, place) ← readField d row field (path ++ [i]) place
    let (items, place) ← readFields d row fields path (i + 1) place
    pure (item :: items, place)

end

/-- Reads a row of some fields. -/
def readRecord (d : Decoder) (schema : Schema) (span : Span) (depth : Nat) : Decoding Value := do
  .ofExcept (d.checkDepth depth span)
  let bitmap ← .access (NullBitmap.ofSpan span schema.bitmapWords)
  let fixed ← .access (span.advance bitmap.byteCount)
  let (items, _) ← d.readFields ⟨span, bitmap, fixed, depth⟩ schema.fields [] 0 ⟨0, 0⟩
  pure (.tuple items)

theorem readField_of_not_isTuple {s : Schema} (h : s.isTuple = false) (d : Decoder) (row : OpenRow)
    (path : Path) (place : Place) : d.readField row s path place = d.readSlot row s path place := by
  cases s with
  | tuple fields =>
    cases fields with
    | nil => rfl
    | cons field fields => simp [Schema.isTuple] at h
  | _ => rfl

end Decoder

theorem mapError_ok {ε ε' α : Type} (f : ε → ε') (a : α) :
    (Except.ok a : Except ε α).mapError f = .ok a := rfl

namespace Decoding

variable {α β γ δ : Type}

/-- Two decodings that fail alike, or succeed alike with related results. -/
inductive Agree (R : α → β → Prop) : Decoding α → Decoding β → Prop
  | fail (e : Fault) (ds : Diagnostics) : Agree R ⟨.error e, ds⟩ ⟨.error e, ds⟩
  | ok {a : α} {b : β} (ds : Diagnostics) (h : R a b) : Agree R ⟨.ok a, ds⟩ ⟨.ok b, ds⟩

theorem Agree.bind {R : α → β → Prop} {S : γ → δ → Prop} {x : Decoding α} {y : Decoding β}
    {f : α → Decoding γ} {g : β → Decoding δ} (h : Agree R x y)
    (hf : ∀ a b, R a b → Agree S (f a) (g b)) : Agree S (x.bind f) (y.bind g) := by
  cases h with
  | fail e ds => exact .fail e ds
  | @ok a b ds hab =>
    have hs := hf a b hab
    simp only [Decoding.bind]
    rcases hx : f a with ⟨r, es⟩
    rcases hy : g b with ⟨t, fs⟩
    rw [hx, hy] at hs
    cases hs with
    | fail e _ => exact .fail e (ds ++ es)
    | ok _ h => exact .ok (ds ++ es) h

theorem Agree.bind_same {S : γ → δ → Prop} (x : Decoding α) {f : α → Decoding γ}
    {g : α → Decoding δ} (h : ∀ a, Agree S (f a) (g a)) : Agree S (x.bind f) (x.bind g) := by
  obtain ⟨e | a, ds⟩ := x
  · exact .fail e ds
  · exact (Agree.ok ds rfl).bind fun b c hbc => hbc ▸ h b

theorem Agree.eq {x y : Decoding α} (h : Agree (· = ·) x y) : x = y := by
  cases h with
  | fail e ds => rfl
  | ok ds h => rw [h]

theorem ofExcept_ok (a : α) : ofExcept (.ok a) = .ok a := rfl

theorem access_ok (a : α) : access (.ok a) = .ok a := rfl

/-- A read from the buffer succeeds without a report, and so does what is done with its result. -/
theorem access_bind_eq_ok_iff {x : Except BoundsError α} {f : α → Decoding β} {b : β}
    {ds : Diagnostics} :
    (access x).bind f = ⟨.ok b, ds⟩ ↔ ∃ a, x = .ok a ∧ f a = ⟨.ok b, ds⟩ := by
  cases x with
  | error e =>
    constructor
    · intro h
      cases congrArg result h
    · rintro ⟨_, h, _⟩
      cases h
  | ok a => simp [access_ok]

theorem within_eq_ok_iff {x : Decoding α} {context : Fault → Fault} {a : α} {ds : Diagnostics} :
    x.within context = ⟨.ok a, ds⟩ ↔ x = ⟨.ok a, ds⟩ := by
  obtain ⟨e | b, es⟩ := x
  · constructor
    · intro h
      cases congrArg result h
    · intro h
      cases congrArg result h
  · exact Iff.rfl

end Decoding

namespace Path

theorem sharedLength_append (p : Path) {i j : Nat} (h : i ≠ j) (q r : Path) :
    sharedLength (p ++ i :: q) (p ++ j :: r) = p.length := by
  induction p with
  | nil => simp [sharedLength, h]
  | cons k p ih => simp [sharedLength, ih]

end Path

theorem Schema.fieldAt?_append (s : Schema) (p q : Path) :
    s.fieldAt? (p ++ q) = (s.fieldAt? p).bind fun t => t.fieldAt? q := by
  induction p generalizing s with
  | nil => rfl
  | cons i p ih =>
    simp only [List.cons_append, Schema.fieldAt?]
    split
    next field _ => exact ih field
    next => rfl

end RowFormat
