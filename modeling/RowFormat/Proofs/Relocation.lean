import RowFormat.Proofs.Frames

namespace RowFormat

/-- What the first step returns, the second returns too, seen through `f`. -/
def Carries {ε α β : Type} (f : α → β) (x : Except ε α) (y : Except ε β) : Prop :=
  ∀ a, x = .ok a → y = .ok (f a)

namespace Carries

variable {ε α β γ δ : Type}

theorem ok (f : α → β) (a : α) : Carries f (.ok a : Except ε α) (.ok (f a)) := by
  intro b hb
  cases hb
  rfl

theorem of_error (f : α → β) (e : ε) (y : Except ε β) : Carries f (.error e) y := by
  intro a ha
  cases ha

theorem bind {f : α → β} {g : γ → δ} {x : Except ε α} {y : Except ε β} {F : α → Except ε γ}
    {G : β → Except ε δ} (h : Carries f x y) (hF : ∀ a, Carries g (F a) (G (f a))) :
    Carries g (x >>= F) (y >>= G) := by
  obtain e | a := x
  · exact of_error g e _
  · rw [h a rfl]
    exact hF a

theorem map {x y : Except ε α} (h : Carries id x y) (g : α → β) :
    Carries id (x.map g) (y.map g) := by
  obtain e | a := x
  · exact of_error id e _
  · rw [h a rfl]
    exact ok id (g a)

theorem mapError {ε' : Type} {f : α → β} {x : Except ε α} {y : Except ε β} (h : Carries f x y)
    (g g' : ε → ε') : Carries f (x.mapError g) (y.mapError g') := by
  obtain e | a := x
  · exact of_error f (g e) _
  · rw [h a rfl]
    exact ok f a

theorem ite {f : α → β} {c c' : Prop} [Decidable c] [Decidable c'] {x : Except ε α}
    {y y' : Except ε β} {e : ε} (hc : c → c') (h : Carries f x y) :
    Carries f (if c then x else .error e) (if c' then y else y') := by
  by_cases hx : c
  · rw [if_pos hx, if_pos (hc hx)]
    exact h
  · rw [if_neg hx]
    exact of_error f e _

end Carries

/-- The same place after its buffer has been put between two others. -/
def Span.inside (pre suf : ByteArray) (s : Span) : Span := ⟨pre ++ s.data ++ suf, s.position + pre.size⟩

def NullBitmap.inside (pre suf : ByteArray) (b : NullBitmap) : NullBitmap :=
  ⟨b.span.inside pre suf, b.words⟩

def NullBit.inside (pre suf : ByteArray) (b : NullBit) : NullBit :=
  ⟨b.bitmap.inside pre suf, b.index⟩

variable (pre suf : ByteArray)

namespace Span

variable (s : Span)

theorem size_inside : (s.inside pre suf).data.size = pre.size + s.data.size + suf.size := by
  simp [inside]

/-- What lies from a place on, put back behind what lies in front of it. -/
theorem inside_rest {s : Span} (h : s.position ≤ s.data.size) :
    (ofBytes (s.data.extract s.position s.data.size)).inside (s.data.extract 0 s.position)
      ByteArray.empty = s := by
  have hdata : s.data.extract 0 s.position ++ s.data.extract s.position s.data.size = s.data := by
    rw [ByteArray.extract_append_extract]
    simp
  have hsize : (s.data.extract 0 s.position).size = s.position := by
    rw [ByteArray.size_extract]
    omega
  simp only [inside, ofBytes, hdata, hsize, ByteArray.append_empty, Nat.zero_add]

theorem extract_inside {n : Nat} (h : s.position + n ≤ s.data.size) :
    (s.inside pre suf).data.extract (s.inside pre suf).position ((s.inside pre suf).position + n) =
      s.data.extract s.position (s.position + n) := by
  simp only [inside]
  rw [show s.position + pre.size + n = pre.size + (s.position + n) by omega,
    Nat.add_comm s.position pre.size, ByteArray.append_assoc, ByteArray.extract_append_size_add,
    ByteArray.extract_append, show s.position - s.data.size = 0 by omega,
    show s.position + n - s.data.size = 0 by omega]
  simp

theorem le_remaining_inside {n : Nat} (h : n ≤ s.remaining) :
    n ≤ (s.inside pre suf).remaining := by
  unfold remaining at h ⊢
  rw [size_inside]
  simp only [inside]
  omega

theorem advance_inside (n : Nat) :
    Carries (inside pre suf) (s.advance n) ((s.inside pre suf).advance n) := by
  intro t h
  obtain ⟨hle, rfl⟩ := advance_eq_ok_iff.mp h
  rw [advance_eq_ok_iff, size_inside]
  simp only [inside, mk.injEq, true_and]
  omega

theorem advanceSigned_inside (n : Int64) :
    Carries (inside pre suf) (s.advanceSigned n) ((s.inside pre suf).advanceSigned n) := by
  unfold advanceSigned
  by_cases hn : n.toInt < 0
  · rw [if_pos hn]
    exact .of_error _ _ _
  · rw [if_neg hn, if_neg hn]
    exact s.advance_inside pre suf n.toInt.toNat

theorem bytes_inside (n : Nat) : Carries id (s.bytes n) ((s.inside pre suf).bytes n) := by
  intro b h
  obtain ⟨hle, rfl⟩ := bytes_eq_ok_iff.mp h
  rw [bytes_eq_ok_iff, extract_inside pre suf s hle, size_inside]
  refine ⟨?_, rfl⟩
  simp only [inside]
  omega

theorem number_inside (w : Nat) : Carries id (s.number w) ((s.inside pre suf).number w) :=
  (s.bytes_inside pre suf w).map _

theorem byte_inside : Carries id s.byte (s.inside pre suf).byte :=
  (s.number_inside pre suf 1).map _

theorem word_inside : Carries id s.word (s.inside pre suf).word :=
  (s.number_inside pre suf slotSize).map _

theorem int_inside : Carries id s.int (s.inside pre suf).int :=
  (s.word_inside pre suf).map _

theorem float_inside : Carries id s.float (s.inside pre suf).float :=
  (s.word_inside pre suf).map _

theorem descriptor_inside : Carries id s.descriptor (s.inside pre suf).descriptor :=
  (s.word_inside pre suf).map _

theorem wordAt_inside (n : Nat) : Carries id (s.wordAt n) ((s.inside pre suf).wordAt n) :=
  (s.advance_inside pre suf n).bind fun t => t.word_inside pre suf

end Span

namespace Descriptor

variable (d : Descriptor) (s : Span)

theorem target_inside : Carries (Span.inside pre suf) (d.target s) (d.target (s.inside pre suf)) :=
  s.advance_inside pre suf d.offset.toNat

theorem payload_inside : Carries id (d.payload s) (d.payload (s.inside pre suf)) :=
  (d.target_inside pre suf s).bind fun t => t.bytes_inside pre suf d.length.toNat

end Descriptor

namespace NullBitmap

theorem ofSpan_inside (s : Span) (words : Nat) :
    Carries (inside pre suf) (ofSpan s words) (ofSpan (s.inside pre suf) words) :=
  .ite (s.le_remaining_inside pre suf) (.ok _ _)

theorem embedded_inside (s : Span) :
    Carries (fun r => (r.1.inside pre suf, r.2.inside pre suf)) (embedded s)
      (embedded (s.inside pre suf)) :=
  (ofSpan_inside pre suf s 1).bind fun b =>
    (s.advance_inside pre suf bitmapWordSize).bind fun t => .ok _ (b, t)

theorem word_inside (b : NullBitmap) (i : Nat) :
    Carries id (b.word i) ((b.inside pre suf).word i) :=
  .ite id (b.span.wordAt_inside pre suf (i * bitmapWordSize))

theorem isNull_inside (b : NullBitmap) (i : Nat) :
    Carries id (b.isNull i) ((b.inside pre suf).isNull i) :=
  (b.word_inside pre suf (i / bitmapWordBits)).map _

end NullBitmap

end RowFormat
