import RowFormat.NullBitmap
import RowFormat.Proofs.Fields

namespace RowFormat

namespace Decoding

variable {α β : Type} {lossy : Prop} {P : Fault → Prop} {Q : α → Prop} {R : β → Prop}

/-- A fault satisfies the first predicate and a result the second, if something was lost whenever that
was reported. -/
def Ends (lossy : Prop) (P : Fault → Prop) (Q : α → Prop) (x : Decoding α) : Prop :=
  (x.diagnostics ≠ [] → lossy) →
    match x.result with
    | .error e => P e
    | .ok a => Q a

namespace Ends

theorem ok {a : α} (h : Q a) : Ends lossy P Q (.ok a) := fun _ => h

theorem of_fail {e : Fault} (h : P e) : Ends lossy P Q (.fail e) := fun _ => h

theorem ofExcept {x : Except Fault α} (h : ∀ e, x = .error e → P e) (ha : ∀ a, x = .ok a → Q a) :
    Ends lossy P Q (.ofExcept x) := by
  intro _
  cases x with
  | error e => exact h e rfl
  | ok a => exact ha a rfl

theorem bind {x : Decoding α} {f : α → Decoding β} (hx : Ends lossy P Q x)
    (hf : ∀ a, Q a → Ends lossy P R (f a)) : Ends lossy P R (x.bind f) := by
  obtain ⟨e | a, ds⟩ := x
  · exact hx
  · intro hlossy
    have ha : Q a := hx fun hne => hlossy (List.append_ne_nil_of_left_ne_nil hne _)
    exact hf a ha fun hne => hlossy (List.append_ne_nil_of_right_ne_nil ds hne)

/-- A read that is known to succeed. -/
theorem bind_access {x : Except BoundsError α} {a : α} {f : α → Decoding β} (hx : x = .ok a)
    (hf : Ends lossy P R (f a)) : Ends lossy P R ((Decoding.access x).bind f) := by
  rw [hx, access_ok, ok_bind]
  exact hf

theorem within {x : Decoding α} {context : Fault → Fault} (h : Ends lossy P Q x)
    (hcontext : ∀ e, P e → P (context e)) : Ends lossy P Q (x.within context) := by
  obtain ⟨e | a, ds⟩ := x
  · exact fun hlossy => hcontext e (h hlossy)
  · exact h

theorem imp {P' : Fault → Prop} {Q' : α → Prop} {x : Decoding α} (h : Ends lossy P Q x)
    (hfault : ∀ e, P e → P' e) (hresult : ∀ a, Q a → Q' a) : Ends lossy P' Q' x := by
  obtain ⟨e | a, ds⟩ := x
  · exact fun hlossy => hfault e (h hlossy)
  · exact fun hlossy => hresult a (h hlossy)

theorem fault {x : Decoding α} (h : Ends lossy P Q x) {e : Fault} {ds : Diagnostics}
    (hx : x = ⟨.error e, ds⟩) (hlossy : ds ≠ [] → lossy) : P e := by
  subst hx
  exact h hlossy

theorem result {x : Decoding α} (h : Ends lossy P Q x) {a : α} {ds : Diagnostics}
    (hx : x = ⟨.ok a, ds⟩) (hlossy : ds ≠ [] → lossy) : Q a := by
  subst hx
  exact h hlossy

end Ends

end Decoding

namespace Decoder

open Decoding (Ends)

variable {lossy : Prop} {P : Fault → Prop}

theorem checkDepth_ends (d : Decoder) (depth : Nat) (span : Span)
    (h : P (.tooDeep depth d.maxDepth span.position)) :
    Ends lossy P (fun _ => depth < d.maxDepth) (.ofExcept (d.checkDepth depth span)) := by
  unfold checkDepth
  split
  next hdepth => exact .ok hdepth
  next => exact .of_fail h

theorem decodeText_ends (bytes : ByteArray) (position : Nat)
    (h : ∀ cause, P (.invalidText position cause)) :
    Ends lossy P (fun _ => True) (decodeText bytes position) := by
  unfold decodeText
  cases readText bytes with
  | error cause => exact .of_fail (h cause)
  | ok text => exact .ok trivial

end Decoder

namespace Span

variable {s : Span}

theorem exists_word (h : s.position + slotSize ≤ s.data.size) : ∃ w, s.word = .ok w := by
  simp only [word, number, bytes_eq_ok_iff.mpr ⟨h, rfl⟩]
  exact ⟨_, rfl⟩

theorem exists_byte (h : s.position + slotSize ≤ s.data.size) : ∃ b, s.byte = .ok b := by
  have hroom : s.position + 1 ≤ s.data.size := by
    simp only [slotSize] at h
    omega
  simp only [byte, number, bytes_eq_ok_iff.mpr ⟨hroom, rfl⟩]
  exact ⟨_, rfl⟩

theorem exists_int (h : s.position + slotSize ≤ s.data.size) : ∃ n, s.int = .ok n := by
  obtain ⟨w, hw⟩ := exists_word h
  exact ⟨w.toInt64, by rw [int, hw, Except.map]⟩

theorem exists_float (h : s.position + slotSize ≤ s.data.size) : ∃ x, s.float = .ok x := by
  obtain ⟨w, hw⟩ := exists_word h
  exact ⟨⟨w⟩, by rw [float, hw, Except.map]⟩

end Span

/-- A word of a bitmap that lies in the buffer can be read. -/
theorem NullBitmap.exists_word {b : NullBitmap} {k : Nat}
    (h : b.span.position + b.words * bitmapWordSize ≤ b.span.data.size) (hk : k < b.words) :
    ∃ w, b.word k = .ok w := by
  have hlast := Nat.mul_le_mul_right bitmapWordSize (Nat.succ_le_of_lt hk)
  simp only [bitmapWordSize, slotSize] at h hlast
  have hplace : b.span.advance (k * bitmapWordSize) =
      .ok ⟨b.span.data, b.span.position + k * bitmapWordSize⟩ :=
    Span.advance_eq_ok_iff.mpr ⟨by simp only [bitmapWordSize, slotSize]; omega, rfl⟩
  rw [word, if_pos hk, Span.wordAt, hplace]
  exact Span.exists_word (by simp only [bitmapWordSize, slotSize]; omega)

/-- A bit of a bitmap that lies in the buffer can be read. -/
theorem NullBitmap.exists_isNull {b : NullBitmap} {i : Nat}
    (h : b.span.position + b.words * bitmapWordSize ≤ b.span.data.size)
    (hi : i < b.words * bitmapWordBits) : ∃ null, b.isNull i = .ok null := by
  obtain ⟨w, hw⟩ := exists_word h (Nat.div_lt_of_lt_mul (Nat.mul_comm .. ▸ hi))
  exact ⟨_, by rw [isNull, hw, Except.map]⟩

/-- Faults that no buffer is to blame for: the open tuples do not fit the leaves they are built
from. -/
def Fault.isInternal : Fault → Bool
  | .frame _ | .notTuple _ => true
  | .field _ _ _ cause | .row _ cause => cause.isInternal
  | _ => false

/-- A bitmap word is asked for that its bitmap does not have. -/
def BoundsError.isLookup : BoundsError → Bool
  | .wordOutOfRange .. => true
  | _ => false

/-- Faults of a lookup in a null bitmap. -/
def Fault.isLookup : Fault → Bool
  | .bounds cause => cause.isLookup
  | .field _ _ _ cause | .row _ cause => cause.isLookup
  | _ => false

/-- Faults that a buffer or a limit is to blame for. -/
structure Fault.IsRegular (e : Fault) : Prop where
  notInternal : e.isInternal = false
  notLookup : e.isLookup = false

theorem Fault.IsRegular.field {cause : Fault} (h : cause.IsRegular) (path : Path) (schema : Schema)
    (position : Nat) : (Fault.field path schema position cause).IsRegular :=
  ⟨h.notInternal, h.notLookup⟩

/-- The access is no lookup, or one that is in range. -/
def Locates {α : Type} (x : Except BoundsError α) : Prop := ∀ e, x = .error e → e.isLookup = false

namespace Locates

variable {α β : Type} {x : Except BoundsError α}

theorem map (h : Locates x) (f : α → β) : Locates (x.map f) := by
  intro e he
  cases x with
  | error cause => exact Except.error.inj he ▸ h cause rfl
  | ok a => cases he

theorem bind (h : Locates x) {f : α → Except BoundsError β} (hf : ∀ a, Locates (f a)) :
    Locates (x >>= f) := by
  intro e he
  cases x with
  | error cause => exact Except.error.inj he ▸ h cause rfl
  | ok a => exact hf a e he

end Locates

namespace Span

theorem locates_advance (s : Span) (offset : Nat) : Locates (s.advance offset) := by
  intro e he
  unfold advance at he
  split at he
  next => cases he
  next => split at he <;> cases he <;> rfl

theorem locates_advanceSigned (s : Span) (offset : Int64) : Locates (s.advanceSigned offset) := by
  intro e he
  unfold advanceSigned at he
  split at he
  next => cases he; rfl
  next => exact locates_advance s _ e he

theorem locates_bytes (s : Span) (length : Nat) : Locates (s.bytes length) := by
  intro e he
  unfold bytes at he
  split at he
  next => cases he
  next => split at he <;> cases he <;> rfl

theorem locates_word (s : Span) : Locates s.word := ((locates_bytes s slotSize).map _).map _

theorem locates_int (s : Span) : Locates s.int := (locates_word s).map _

theorem locates_float (s : Span) : Locates s.float := (locates_word s).map _

theorem locates_descriptor (s : Span) : Locates s.descriptor := (locates_word s).map _

theorem locates_byte (s : Span) : Locates s.byte := ((locates_bytes s 1).map _).map _

theorem locates_wordAt (s : Span) (offset : Nat) : Locates (s.wordAt offset) :=
  (locates_advance s offset).bind fun place => locates_word place

theorem locates_payload (descriptor : Descriptor) (s : Span) : Locates (descriptor.payload s) :=
  (locates_advance s _).bind fun start => locates_bytes start _

end Span

namespace NullBitmap

theorem locates_ofSpan (span : Span) (words : Nat) : Locates (ofSpan span words) := by
  intro e he
  unfold ofSpan at he
  split at he
  next => cases he
  next => cases he; rfl

theorem locates_embedded (span : Span) : Locates (embedded span) :=
  (locates_ofSpan span 1).bind fun _ =>
    (Span.locates_advance span bitmapWordSize).bind fun _ _ he => by cases he

end NullBitmap

/-- The decoding only fails by a regular fault, and its result satisfies a predicate. -/
abbrev Decoding.Regular {α : Type} (lossy : Prop) (Q : α → Prop) (x : Decoding α) : Prop :=
  x.Ends lossy Fault.IsRegular Q

theorem Decoding.Ends.bind_read {α β : Type} {lossy : Prop} {Q : β → Prop} {x : Except BoundsError α}
    {f : α → Decoding β} (hx : Locates x) (h : ∀ a, x = .ok a → Regular lossy Q (f a)) :
    Regular lossy Q ((Decoding.access x).bind f) := by
  cases x with
  | error e => exact .of_fail ⟨rfl, hx e rfl⟩
  | ok a => exact .bind_access rfl (h a rfl)

/-- The faults stay regular if they only need be under some condition. -/
theorem Decoding.Ends.given {α : Type} {lossy : Prop} {Q : α → Prop} {x : Decoding α}
    (h : Regular lossy Q x) (p : Prop) : x.Ends lossy (fun e => p → e.IsRegular) Q :=
  h.imp (fun _ he _ => he) fun _ ha => ha

end RowFormat
