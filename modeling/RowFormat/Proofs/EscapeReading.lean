import RowFormat.Proofs.Escapes
import Mathlib

namespace RowFormat

namespace Escape

/-- A text that is taken for a code unit. -/
inductive Spells : Nat → List Char → Prop
  | digits {unit : Nat} {digits : List Char} : Hex unit digits → Spells unit digits
  | signed {unit : Nat} {digits : List Char} : Hex unit ('0' :: digits) → Spells unit ('+' :: digits)

/-- What is left of a text after some characters of it have been read, escaped or not. -/
inductive Reaches : List Char → List Char → Prop
  | refl (rest : List Char) : Reaches rest rest
  | step {first c : Char} {cs mid rest : List Char} : readChar first cs = .ok (c, mid) →
      Reaches mid rest → Reaches (first :: cs) rest

/-- Text that cannot be read, whatever stands behind it: a backslash at the end, in front of a
character that no escape begins with, or in front of a code unit that is cut off, and a surrogate
without the other half of its pair. -/
inductive Breaks : List Char → Prop
  | lone : Breaks ['\\']
  | unknown {c : Char} {more : List Char} : c ∉ ['n', 'r', 't', 'b', 'f', '\\', '"', '/', 'u'] →
      Breaks ('\\' :: c :: more)
  | short {digits : List Char} : digits.length < 4 → Breaks ('\\' :: 'u' :: digits)
  | low {low : Nat} {digits more : List Char} : low < 0x400 → Hex (0xdc00 + low) digits →
      Breaks ('\\' :: 'u' :: (digits ++ more))
  | high {high : Nat} {digits more : List Char} : high < 0x400 → Hex (0xd800 + high) digits →
      (∀ low second rest, low < 0x400 → Hex (0xdc00 + low) second →
        more ≠ '\\' :: 'u' :: (second ++ rest)) →
      Breaks ('\\' :: 'u' :: (digits ++ more))

/-- The digits of base 16 are the decimal ones and six letters in either case. -/
theorem isHex_of_digit? {c : Char} {value : Nat} (h : Numeral.digit? 16 c = some value) :
    IsHex value c := by
  have hdecimal : ∀ v < 10, Char.ofNat (v + 48) = Nat.digitChar v := by decide
  have hlower : ∀ v < 16, 10 ≤ v → Char.ofNat (v + 87) = Nat.digitChar v := by decide
  have hupper : ∀ v < 16, 10 ≤ v → Char.ofNat (v + 55) = (Nat.digitChar v).toUpper := by decide
  have hchar {n : Nat} (hn : n = c.toNat) : c = Char.ofNat n := by rw [hn, Char.ofNat_toNat]
  have hle {a b : Char} (hab : a ≤ b) : a.toNat ≤ b.toNat := hab
  simp only [Numeral.digit?, Option.ite_none_right_eq_some, Option.some.injEq] at h
  obtain ⟨hlt, hvalue⟩ := h
  rw [hvalue] at hlt
  refine ⟨hlt, ?_⟩
  split at hvalue
  next hrange =>
    have hlow := hle hrange.1
    have hhigh := hle hrange.2
    simp only [Char.reduceToNat] at hvalue hlow hhigh
    exact .inl ((hchar (by omega)).trans (hdecimal value (by omega)))
  next =>
    split at hvalue
    next hrange =>
      have hlow := hle hrange.1
      simp only [Char.reduceToNat] at hvalue hlow
      exact .inl ((hchar (by omega)).trans (hlower value hlt (by omega)))
    next =>
      split at hvalue
      next hrange =>
        have hlow := hle hrange.1
        simp only [Char.reduceToNat] at hvalue hlow
        exact .inr ((hchar (by omega)).trans (hupper value hlt (by omega)))
      next => omega

/-- What digits are read from, and the number that they make behind the digits in front of them. -/
theorem hex_of_readDigits {limit n m : Nat} {beyond : NumeralError} {cs : List Char}
    (h : Numeral.readDigits 16 limit beyond n cs = .ok m) :
    ∃ values, List.Forall₂ IsHex values cs ∧ m = values.foldl (fun n v => n * 16 + v) n := by
  induction cs generalizing n with
  | nil =>
    obtain rfl := Except.ok.inj h
    exact ⟨[], .nil, rfl⟩
  | cons c cs ih =>
    rw [Numeral.readDigits] at h
    cases hdigit : Numeral.digit? 16 c with
    | none => simp [hdigit] at h
    | some v =>
      simp only [hdigit] at h
      split at h
      next hle =>
        obtain ⟨values, hvalues, rfl⟩ := ih h
        refine ⟨v :: values, .cons (isHex_of_digit? hdigit) hvalues, ?_⟩
        rw [List.foldl_cons, Nat.mul_comm n]
      next hle => cases h

theorem byteCount_of_isHex {values : List Nat} {cs : List Char} (h : List.Forall₂ IsHex values cs) :
    byteCount cs = cs.length := by
  induction h with
  | nil => rfl
  | cons hdigit _ ih => rw [byteCount, hdigit.digit.2.1, ih, List.length_cons, Nat.add_comm]

/-- The four digits that a unit is read from. -/
theorem hex_of_readDigits_four {limit unit : Nat} {beyond : NumeralError} {cs : List Char}
    (h : Numeral.readDigits 16 limit beyond 0 cs = .ok unit) (hsize : byteCount cs = 4) :
    Hex unit cs := by
  obtain ⟨values, hvalues, rfl⟩ := hex_of_readDigits h
  rw [byteCount_of_isHex hvalues] at hsize
  obtain ⟨c₁, c₂, c₃, c₄, rfl⟩ := List.length_eq_four.mp hsize
  rcases hvalues with _ | ⟨h₁, _ | ⟨h₂, _ | ⟨h₃, _ | ⟨h₄, _ | _⟩⟩⟩⟩
  simp only [List.foldl_cons, List.foldl_nil, Nat.zero_mul, Nat.zero_add]
  exact .digits h₁ h₂ h₃ h₄

/-- A sign adds nothing to a number, and neither would a zero in its place. -/
theorem readUnsigned_plus {limit : Nat} {cs : List Char} (h : cs ≠ []) :
    Numeral.readUnsigned 16 limit ('+' :: cs) = Numeral.readUnsigned 16 limit ('0' :: cs) := by
  cases cs with
  | nil => exact absurd rfl h
  | cons c cs => rfl

theorem spells_of_readUnsigned {limit unit : Nat} {cs : List Char}
    (h : Numeral.readUnsigned 16 limit cs = .ok unit) (hsize : byteCount cs = 4) : Spells unit cs := by
  match cs with
  | [] => cases h
  | c :: cs =>
    by_cases hplus : c = '+'
    · subst hplus
      have hsome : cs ≠ [] := by
        rintro rfl
        cases hsize
      rw [readUnsigned_plus hsome, readUnsigned_of_ne_plus (by decide)] at h
      exact .signed (hex_of_readDigits_four h hsize)
    · rw [readUnsigned_of_ne_plus hplus] at h
      exact .digits (hex_of_readDigits_four h hsize)

theorem readUnit_eq_ok_iff_readUnsigned {cs rest : List Char} {unit : Nat} :
    readUnit cs = .ok (unit, rest) ↔ byteCount (cs.take 4) = 4 ∧
      Numeral.readUnsigned 16 (halfLimit - 1) (cs.take 4) = .ok unit ∧ rest = cs.drop 4 := by
  simp only [readUnit]
  by_cases hsize : byteCount (cs.take 4) = 4
  · rw [if_pos hsize]
    cases Numeral.readUnsigned 16 (halfLimit - 1) (cs.take 4) with
    | error e => simp
    | ok read => simp [hsize, eq_comm]
  · simp [hsize]

/-- A code unit is read from what it is spelled by, and from nothing else. -/
theorem readUnit_eq_ok_iff {cs rest : List Char} {unit : Nat} :
    readUnit cs = .ok (unit, rest) ↔ ∃ digits, Spells unit digits ∧ cs = digits ++ rest := by
  constructor
  · intro h
    obtain ⟨hsize, hread, rfl⟩ := readUnit_eq_ok_iff_readUnsigned.mp h
    exact ⟨cs.take 4, spells_of_readUnsigned hread hsize, (List.take_append_drop 4 cs).symm⟩
  · rintro ⟨_, hdigits | hdigits, rfl⟩
    · exact readUnit_of_hex hdigits rest
    · have hzero := readUnit_eq_ok_iff_readUnsigned.mp (readUnit_of_hex hdigits rest)
      cases hdigits with
      | digits _ _ _ _ =>
        obtain ⟨hsize, hread, hrest⟩ := hzero
        refine readUnit_eq_ok_iff_readUnsigned.mpr ⟨hsize, ?_, hrest⟩
        exact (readUnsigned_plus (List.cons_ne_nil _ _)).trans hread

theorem Spells.length {unit : Nat} {digits : List Char} (h : Spells unit digits) :
    digits.length = 4 := by
  cases h with
  | digits h => cases h; rfl
  | signed h => cases h; rfl

/-- With a sign there is only room for three digits, too few for a surrogate. -/
theorem Spells.hex {unit : Nat} {digits : List Char} (h : Spells unit digits) (hunit : 0x1000 ≤ unit) :
    Hex unit digits := by
  cases h with
  | digits h => exact h
  | signed h =>
    obtain @⟨v₁, v₂, v₃, v₄, _, _, _, _, h₁, h₂, h₃, h₄⟩ := h
    have hzero : Numeral.digit? 16 '0' = some v₁ := h₁.digit.1
    obtain rfl : 0 = v₁ := Option.some.inj hzero
    have hlt₂ := h₂.1
    have hlt₃ := h₃.1
    have hlt₄ := h₄.1
    omega

theorem unescapeList_of_readChar_error {first : Char} {cs : List Char} {e : EscapeError}
    (h : readChar first cs = .error e) : unescapeList (first :: cs) = .error e := by
  rw [unescapeList]
  split
  next e' he =>
    rw [h] at he
    rw [Except.error.inj he]
  next d after hd =>
    rw [h] at hd
    cases hd

/-- What is made of a text is what was read up to some place, and what is made of the rest. -/
theorem Reaches.unescapeList_eq {text rest : List Char} (h : Reaches text rest) :
    ∃ front, unescapeList text = (unescapeList rest).map (front ++ ·) := by
  induction h with
  | refl rest => exact ⟨[], by cases unescapeList rest <;> rfl⟩
  | @step first c cs mid rest hread _ ih =>
    obtain ⟨front, hfront⟩ := ih
    refine ⟨c :: front, ?_⟩
    rw [unescapeList_of_readChar hread, hfront]
    cases unescapeList rest <;> rfl

theorem reaches_of_writesAll {cs text : List Char} (h : WritesAll cs text) (tail : List Char) :
    Reaches (text ++ tail) tail := by
  induction h with
  | nil => exact .refl tail
  | @cons c cs piece text hc _ ih =>
    obtain ⟨first, piece, rfl⟩ := List.exists_cons_of_ne_nil hc.ne_nil
    rw [List.append_assoc, List.cons_append]
    exact .step (readChar_of_writes hc (text ++ tail)) ih

theorem toNat_joinPair {high low : Nat} (hhigh : high < 0x400) (hlow : low < 0x400) :
    (Char.ofNat (joinPair (0xd800 + high) (0xdc00 + low))).toNat = 0x10000 + high * 0x400 + low := by
  have hvalid : (0x10000 + high * 0x400 + low).isValidChar := .inr ⟨by omega, by omega⟩
  rw [joinPair_add, Char.toNat_ofNat, if_pos hvalid]

/-- What is read behind the first half of a pair is the second half. -/
theorem exists_of_readUnicode_high {cs after rest : List Char} {c : Char} {high : Nat}
    (hhigh : high < 0x400) (hunit : readUnit cs = .ok (0xd800 + high, after))
    (h : readUnicode cs = .ok (c, rest)) :
    ∃ low more, low < 0x400 ∧ c.toNat = 0x10000 + high * 0x400 + low ∧
      after = '\\' :: 'u' :: more ∧ readUnit more = .ok (0xdc00 + low, rest) := by
  have hisHigh : isHigh (0xd800 + high) := isHigh_iff.mpr ⟨high, hhigh, rfl⟩
  simp only [readUnicode, hunit, bind, Except.bind, hisHigh, if_true] at h
  split at h
  next more =>
    cases hsecond : readUnit more with
    | error e =>
      rw [hsecond] at h
      cases h
    | ok r =>
      obtain ⟨second, behind⟩ := r
      simp only [hsecond] at h
      split at h
      next hisLow =>
        obtain ⟨low, hlow, rfl⟩ := isLow_iff.mp hisLow
        obtain ⟨rfl, rfl⟩ := Prod.mk.inj (Except.ok.inj h)
        exact ⟨low, more, hlow, toNat_joinPair hhigh hlow, rfl, hsecond⟩
      next => cases h
  next => cases h

theorem exists_of_readUnicode {cs rest : List Char} {c : Char} (h : readUnicode cs = .ok (c, rest)) :
    readUnit cs = .ok (c.toNat, rest) ∨
      ∃ high low more, high < 0x400 ∧ low < 0x400 ∧ c.toNat = 0x10000 + high * 0x400 + low ∧
        readUnit cs = .ok (0xd800 + high, '\\' :: 'u' :: more) ∧
        readUnit more = .ok (0xdc00 + low, rest) := by
  cases hunit : readUnit cs with
  | error e =>
    rw [readUnicode, hunit] at h
    cases h
  | ok r =>
    obtain ⟨unit, after⟩ := r
    by_cases hisHigh : isHigh unit
    · obtain ⟨high, hhigh, rfl⟩ := isHigh_iff.mp hisHigh
      obtain ⟨low, more, hlow, hc, rfl, hsecond⟩ := exists_of_readUnicode_high hhigh hunit h
      exact .inr ⟨high, low, more, hhigh, hlow, hc, rfl, hsecond⟩
    · simp only [readUnicode, hunit, bind, Except.bind, if_neg hisHigh] at h
      split at h
      next hvalid =>
        obtain ⟨rfl, rfl⟩ := Prod.mk.inj (Except.ok.inj h)
        rw [Char.toNat_ofNat, if_pos hvalid]
        exact .inl rfl
      next => cases h

/-- Behind `\u` stands the code unit of a character, or the first half of a pair and then the second
one. -/
theorem readUnicode_eq_ok_iff {cs rest : List Char} {c : Char} :
    readUnicode cs = .ok (c, rest) ↔
      readUnit cs = .ok (c.toNat, rest) ∨
        ∃ high low more, high < 0x400 ∧ low < 0x400 ∧ c.toNat = 0x10000 + high * 0x400 + low ∧
          readUnit cs = .ok (0xd800 + high, '\\' :: 'u' :: more) ∧
          readUnit more = .ok (0xdc00 + low, rest) := by
  refine ⟨exists_of_readUnicode, ?_⟩
  rintro (hunit | ⟨high, low, more, hhigh, hlow, hc, hfirst, hsecond⟩)
  · exact readUnicode_of_readUnit hunit
  · exact readUnicode_of_halves hhigh hlow hc hfirst hsecond

/-- A low surrogate stands for no character. -/
theorem readUnicode_ne_ok_of_low {low : Nat} {digits : List Char} (hlow : low < 0x400)
    (h : Hex (0xdc00 + low) digits) (more : List Char) (r : Char × List Char) :
    readUnicode (digits ++ more) ≠ .ok r := by
  intro hr
  have hunit := readUnit_of_hex h more
  rcases readUnicode_eq_ok_iff.mp hr with hchar | ⟨high, _, _, hhigh, _, _, hfirst, _⟩
  · rw [hunit] at hchar
    have hc : 0xdc00 + low = r.1.toNat := (Prod.mk.inj (Except.ok.inj hchar)).1
    have hvalid := toNat_lt_or_le r.1
    omega
  · rw [hunit] at hfirst
    have hsame : 0xdc00 + low = 0xd800 + high := (Prod.mk.inj (Except.ok.inj hfirst)).1
    omega

/-- A high surrogate is read with what is written as a low one behind it, or not at all. -/
theorem readUnicode_ne_ok_of_high {high : Nat} {digits more : List Char} (hhigh : high < 0x400)
    (h : Hex (0xd800 + high) digits)
    (hmore : ∀ low second rest, low < 0x400 → Hex (0xdc00 + low) second →
      more ≠ '\\' :: 'u' :: (second ++ rest)) (r : Char × List Char) :
    readUnicode (digits ++ more) ≠ .ok r := by
  intro hr
  have hunit := readUnit_of_hex h more
  obtain ⟨low, behind, hlow, _, rfl, hsecond⟩ := exists_of_readUnicode_high hhigh hunit hr
  obtain ⟨second, hspells, rfl⟩ := readUnit_eq_ok_iff.mp hsecond
  exact hmore low second r.2 hlow (hspells.hex (by omega)) rfl

theorem readUnicode_ne_ok_of_length_lt {cs : List Char} (h : cs.length < 4) (r : Char × List Char) :
    readUnicode cs ≠ .ok r := by
  intro hr
  have hunit : ∃ unit rest, readUnit cs = .ok (unit, rest) := by
    rcases readUnicode_eq_ok_iff.mp hr with hchar | ⟨_, _, _, _, _, _, hfirst, _⟩
    · exact ⟨_, _, hchar⟩
    · exact ⟨_, _, hfirst⟩
  obtain ⟨unit, rest, hunit⟩ := hunit
  obtain ⟨digits, hspells, rfl⟩ := readUnit_eq_ok_iff.mp hunit
  rw [List.length_append, hspells.length] at h
  omega

theorem readChar_ne_ok_of_breaks {first : Char} {cs : List Char} (h : Breaks (first :: cs))
    (r : Char × List Char) : readChar first cs ≠ .ok r := by
  cases h with
  | lone => simp [readChar, readEscape]
  | unknown hc =>
    simp only [List.mem_cons, List.not_mem_nil, or_false, not_or] at hc
    simp [readChar, readEscape, shortEscape?, hc]
  | short hlength => exact readUnicode_ne_ok_of_length_lt hlength r
  | low hlow hdigits => exact readUnicode_ne_ok_of_low hlow hdigits _ r
  | high hhigh hdigits hmore => exact readUnicode_ne_ok_of_high hhigh hdigits hmore r

theorem Breaks.unescapeList_eq_error {tail : List Char} (h : Breaks tail) :
    ∃ e, unescapeList tail = .error e := by
  match tail with
  | first :: cs =>
    cases hread : readChar first cs with
    | error e => exact ⟨e, unescapeList_of_readChar_error hread⟩
    | ok r => exact absurd hread (readChar_ne_ok_of_breaks h r)

/-- Whatever can be written for a text is read back as that text, by way of the escapes or, where there
are none, without looking for any. Behind it nothing can follow that breaks off inside an escape. -/
theorem unescape_of_writesAll {cs text : List Char} (h : WritesAll cs text) :
    unescape (String.ofList text) = .ok (String.ofList cs) ∧
      JsonCursor.stringText text = .ok (String.ofList cs) ∧
      (∀ raw : List Char, '\\' ∉ raw →
        JsonCursor.stringText raw = .ok (String.ofList raw) ∧
          unescape (String.ofList raw) = .ok (String.ofList raw)) ∧
      ∀ tail, Breaks tail → ∃ e, unescape (String.ofList (text ++ tail)) = .error e := by
  have hread {cs text : List Char} (h : WritesAll cs text) :
      unescape (String.ofList text) = .ok (String.ofList cs) := by
    rw [unescape, String.toList_ofList, unescapeList_of_writesAll h]
    rfl
  refine ⟨hread h, stringText_of_writesAll h, fun raw hraw => ?_, fun tail htail => ?_⟩
  · exact ⟨JsonCursor.stringText_of_not_mem hraw, hread (writesAll_of_not_mem hraw)⟩
  · obtain ⟨front, hfront⟩ := (reaches_of_writesAll h tail).unescapeList_eq
    obtain ⟨e, he⟩ := htail.unescapeList_eq_error
    refine ⟨e, ?_⟩
    rw [unescape, String.toList_ofList, hfront, he]
    rfl

/-- A letter of two bytes, a short escape and a pair. -/
def letterLineFace : List Char :=
  ['é', '\\', 'n', '\\', 'u', 'd', '8', '3', 'D', '\\', 'u', 'd', 'e', '0', '0']

/-- The first half of that pair, and no second half. -/
def halfFace : List Char := ['\\', 'u', 'd', '8', '3', 'D', '\\', 'n']

theorem unescape_of_writesAll_letterLineFace :
    unescape (String.ofList letterLineFace) = .ok (String.ofList ['é', '\n', '😀']) ∧
      JsonCursor.stringText letterLineFace = .ok (String.ofList ['é', '\n', '😀']) ∧
      ∃ e, unescape (String.ofList (letterLineFace ++ halfFace)) = .error e := by
  have hhigh : Hex (0xd800 + 0x3d) ['d', '8', '3', 'D'] :=
    @Hex.digits 13 8 3 13 _ _ _ _ ⟨by decide, .inl rfl⟩ ⟨by decide, .inl rfl⟩
      ⟨by decide, .inl rfl⟩ ⟨by decide, .inr rfl⟩
  have hlow : Hex (0xdc00 + 0x200) ['d', 'e', '0', '0'] :=
    @Hex.digits 13 14 0 0 _ _ _ _ ⟨by decide, .inl rfl⟩ ⟨by decide, .inl rfl⟩
      ⟨by decide, .inl rfl⟩ ⟨by decide, .inl rfl⟩
  have hface := Writes.pair (c := '😀') (by decide) (by decide) rfl hhigh hlow
  have hwritten : WritesAll ['é', '\n', '😀'] letterLineFace :=
    .cons (.plain (by decide)) (.cons .newline (.cons hface .nil))
  have hbroken : Breaks halfFace :=
    .high (by decide) hhigh fun low second rest _ _ => by simp
  obtain ⟨hread, htext, _, herror⟩ := unescape_of_writesAll hwritten
  exact ⟨hread, htext, herror halfFace hbroken⟩

theorem exists_readChar_of_unescape {text out : String} {first : Char} {cs : List Char}
    (h : unescape text = .ok out) (hreached : Reaches text.toList (first :: cs)) :
    ∃ c rest, readChar first cs = .ok (c, rest) := by
  obtain ⟨front, hfront⟩ := hreached.unescapeList_eq
  cases hread : readChar first cs with
  | error e =>
    rw [unescape, hfront, unescapeList_of_readChar_error hread] at h
    cases h
  | ok r => exact ⟨r.1, r.2, rfl⟩

/-- If a text is read to its end, then at every `\u` on the way stands the text of a code unit, and if
that is the first half of a pair then the second half is written behind it. -/
theorem unicode_of_unescape {text out : String} {tail : List Char} (h : unescape text = .ok out)
    (hreached : Reaches text.toList ('\\' :: 'u' :: tail)) :
    ∃ unit digits rest, Spells unit digits ∧ tail = digits ++ rest ∧
      (isHigh unit → Hex unit digits ∧
        ∃ low second more, isLow low ∧ Hex low second ∧ rest = '\\' :: 'u' :: (second ++ more)) := by
  obtain ⟨c, rest, hread⟩ := exists_readChar_of_unescape h hreached
  rcases readUnicode_eq_ok_iff.mp hread with hunit | ⟨high, low, more, hhigh, hlow, _, hfirst, hsecond⟩
  · obtain ⟨digits, hspells, rfl⟩ := readUnit_eq_ok_iff.mp hunit
    refine ⟨c.toNat, digits, rest, hspells, rfl, fun hisHigh => ?_⟩
    rw [isHigh_toNat] at hisHigh
    cases hisHigh
  · obtain ⟨digits, hspells, rfl⟩ := readUnit_eq_ok_iff.mp hfirst
    obtain ⟨second, hspells', rfl⟩ := readUnit_eq_ok_iff.mp hsecond
    refine ⟨0xd800 + high, digits, _, hspells, rfl, fun _ => ⟨hspells.hex (by omega), ?_⟩⟩
    exact ⟨0xdc00 + low, second, rest, isLow_iff.mpr ⟨low, hlow, rfl⟩, hspells'.hex (by omega), rfl⟩

/-- A unit with a sign in front of it, and a pair: both are read, and they stand for `\u0123` and for
the face. -/
theorem unicode_of_unescape_signedThenPair :
    unescape "\\u+123\\uD83D\\ude00" = .ok "\u0123😀" ∧
      ∃ unit digits rest, Spells unit digits ∧ "D83D\\ude00".toList = digits ++ rest ∧
        (isHigh unit → Hex unit digits ∧
          ∃ low second more, isLow low ∧ Hex low second ∧
            rest = '\\' :: 'u' :: (second ++ more)) := by
  have hsigned : readChar '\\' "u+123\\uD83D\\ude00".toList =
      .ok ('\u0123', '\\' :: "uD83D\\ude00".toList) := by rfl
  have hpair : readChar '\\' "uD83D\\ude00".toList = .ok ('😀', []) := by rfl
  have hread : unescape "\\u+123\\uD83D\\ude00" = .ok "\u0123😀" := by
    have hlist : unescapeList "\\u+123\\uD83D\\ude00".toList = .ok ['\u0123', '😀'] := by
      refine (unescapeList_of_readChar hsigned).trans ?_
      rw [unescapeList_of_readChar hpair, unescapeList]
      rfl
    rw [unescape, hlist]
    rfl
  exact ⟨hread, unicode_of_unescape hread (.step hsigned (.refl _))⟩

/-- A plus sign is no digit, but it is read. -/
theorem not_hex_signedUnit :
    unescape "\\u+123" = .ok "\u0123" ∧
      ¬∀ (text out : String) (tail : List Char), unescape text = .ok out →
        Reaches text.toList ('\\' :: 'u' :: tail) →
        ∃ unit digits rest, Hex unit digits ∧ tail = digits ++ rest := by
  have hsigned : readChar '\\' "u+123".toList = .ok ('\u0123', []) := by rfl
  have hread : unescape "\\u+123" = .ok "\u0123" := by
    have hlist : unescapeList "\\u+123".toList = .ok ['\u0123'] := by
      refine (unescapeList_of_readChar hsigned).trans ?_
      rw [unescapeList]
      rfl
    rw [unescape, hlist]
    rfl
  refine ⟨hread, fun h => ?_⟩
  obtain ⟨unit, digits, rest, hdigits, htail⟩ := h _ _ ['+', '1', '2', '3'] hread (.refl _)
  cases hdigits with
  | digits hfirst _ _ _ =>
    obtain ⟨rfl, _⟩ := List.cons.inj htail
    exact hfirst.digit.2.2.1 rfl

end Escape

end RowFormat
