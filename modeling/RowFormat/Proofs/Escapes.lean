import RowFormat.Proofs.JsonLexing

namespace RowFormat

namespace Escape

/-- A hexadecimal digit, in either case. -/
def IsHex (value : Nat) (c : Char) : Prop :=
  value < 16 ∧ (c = value.digitChar ∨ c = value.digitChar.toUpper)

/-- The four digits of a code unit. -/
inductive Hex : Nat → List Char → Prop
  | digits {v₁ v₂ v₃ v₄ : Nat} {c₁ c₂ c₃ c₄ : Char} : IsHex v₁ c₁ → IsHex v₂ c₂ → IsHex v₃ c₃ →
      IsHex v₄ c₄ → Hex (((v₁ * 16 + v₂) * 16 + v₃) * 16 + v₄) [c₁, c₂, c₃, c₄]

/-- The ways to write a character. A character outside the basic plane has twenty bits above that
plane, ten for each unit of its pair. -/
inductive Writes : Char → List Char → Prop
  | plain {c : Char} : c ≠ '\\' → Writes c [c]
  | newline : Writes '\n' ['\\', 'n']
  | carriageReturn : Writes '\r' ['\\', 'r']
  | tab : Writes '\t' ['\\', 't']
  | backspace : Writes '\x08' ['\\', 'b']
  | formFeed : Writes '\x0c' ['\\', 'f']
  | backslash : Writes '\\' ['\\', '\\']
  | quote : Writes '"' ['\\', '"']
  | slash : Writes '/' ['\\', '/']
  | unit {c : Char} {digits : List Char} : Hex c.toNat digits → Writes c ('\\' :: 'u' :: digits)
  | pair {c : Char} {high low : Nat} {first second : List Char} : high < 0x400 → low < 0x400 →
      c.toNat = 0x10000 + high * 0x400 + low → Hex (0xd800 + high) first → Hex (0xdc00 + low) second →
      Writes c ('\\' :: 'u' :: (first ++ '\\' :: 'u' :: second))

/-- The ways to write a text, character by character. -/
inductive WritesAll : List Char → List Char → Prop
  | nil : WritesAll [] []
  | cons {c : Char} {cs piece text : List Char} : Writes c piece → WritesAll cs text →
      WritesAll (c :: cs) (piece ++ text)

/-- Letters are digits of base 16 in either case, and no digit is a sign, a quote or a backslash. -/
theorem IsHex.digit {value : Nat} {c : Char} (h : IsHex value c) :
    Numeral.digit? 16 c = some value ∧ c.utf8Size = 1 ∧ c ≠ '+' ∧ c ≠ '"' ∧ c ≠ '\\' := by
  have hlower : ∀ value < 16, Numeral.digit? 16 value.digitChar = some value ∧
      value.digitChar.utf8Size = 1 ∧ value.digitChar ≠ '+' ∧ value.digitChar ≠ '"' ∧
      value.digitChar ≠ '\\' := by
    decide
  have hupper : ∀ value < 16, Numeral.digit? 16 value.digitChar.toUpper = some value ∧
      value.digitChar.toUpper.utf8Size = 1 ∧ value.digitChar.toUpper ≠ '+' ∧
      value.digitChar.toUpper ≠ '"' ∧ value.digitChar.toUpper ≠ '\\' := by
    decide
  obtain ⟨hvalue, rfl | rfl⟩ := h
  · exact hlower value hvalue
  · exact hupper value hvalue

theorem readUnsigned_of_ne_plus {base limit : Nat} {c : Char} (h : c ≠ '+') (cs : List Char) :
    Numeral.readUnsigned base limit (c :: cs) =
      Numeral.readDigits base limit .tooLarge 0 (c :: cs) := by
  unfold Numeral.readUnsigned
  split
  next heq => cases heq
  next heq =>
    cases heq
    exact absurd rfl h
  next => rfl

theorem readUnit_of_hex {unit : Nat} {digits : List Char} (h : Hex unit digits) (rest : List Char) :
    readUnit (digits ++ rest) = .ok (unit, rest) := by
  obtain @⟨v₁, v₂, v₃, v₄, c₁, c₂, c₃, c₄, h₁, h₂, h₃, h₄⟩ := h
  obtain ⟨hd₁, hs₁, hplus, _⟩ := h₁.digit
  obtain ⟨hd₂, hs₂, _⟩ := h₂.digit
  obtain ⟨hd₃, hs₃, _⟩ := h₃.digit
  obtain ⟨hd₄, hs₄, _⟩ := h₄.digit
  have hlt₁ := h₁.1
  have hlt₂ := h₂.1
  have hlt₃ := h₃.1
  have hlt₄ := h₄.1
  have hsize : byteCount [c₁, c₂, c₃, c₄] = 4 := by simp [byteCount, hs₁, hs₂, hs₃, hs₄]
  have hread : Numeral.readUnsigned 16 (halfLimit - 1) [c₁, c₂, c₃, c₄] =
      .ok (((v₁ * 16 + v₂) * 16 + v₃) * 16 + v₄) := by
    rw [readUnsigned_of_ne_plus hplus]
    simp only [Numeral.readDigits, hd₁, hd₂, hd₃, hd₄, halfLimit]
    rw [if_pos (by omega), if_pos (by omega), if_pos (by omega), if_pos (by omega)]
    exact congrArg Except.ok (by omega)
  simp only [readUnit, List.cons_append, List.nil_append, List.take_succ_cons, List.take_zero,
    List.drop_succ_cons, List.drop_zero, hsize, if_true, hread]

/-- The number of a surrogate is that of no character. -/
theorem toNat_lt_or_le (c : Char) : c.toNat < 0xd800 ∨ 0xe000 ≤ c.toNat := by
  have hvalid : c.toNat.isValidChar := c.valid
  rcases hvalid with hvalid | hvalid
  · exact .inl hvalid
  · exact .inr hvalid.1

theorem isHigh_toNat (c : Char) : isHigh c.toNat = false := by
  have hvalid := toNat_lt_or_le c
  simp only [isHigh, Bool.and_eq_false_iff, decide_eq_false_iff_not]
  omega

theorem readUnicode_of_readUnit {cs rest : List Char} {c : Char}
    (h : readUnit cs = .ok (c.toNat, rest)) : readUnicode cs = .ok (c, rest) := by
  have hvalid : c.toNat.isValidChar := c.valid
  simp [readUnicode, h, bind, Except.bind, isHigh_toNat, hvalid]

theorem readUnicode_of_hex {c : Char} {digits : List Char} (h : Hex c.toNat digits)
    (rest : List Char) : readUnicode (digits ++ rest) = .ok (c, rest) :=
  readUnicode_of_readUnit (readUnit_of_hex h rest)

theorem joinPair_add (high low : Nat) :
    joinPair (0xd800 + high) (0xdc00 + low) = 0x10000 + high * 0x400 + low := by
  unfold joinPair
  generalize hfirst : 0xd800 + high = first
  generalize hsecond : 0xdc00 + low = second
  omega

theorem isHigh_iff {unit : Nat} : isHigh unit ↔ ∃ high < 0x400, unit = 0xd800 + high := by
  simp only [isHigh, Bool.and_eq_true, decide_eq_true_eq]
  constructor
  · rintro ⟨hlow, hhigh⟩
    exact ⟨unit - 0xd800, by omega, by omega⟩
  · rintro ⟨high, hlt, rfl⟩
    omega

theorem isLow_iff {unit : Nat} : isLow unit ↔ ∃ low < 0x400, unit = 0xdc00 + low := by
  simp only [isLow, Bool.and_eq_true, decide_eq_true_eq]
  constructor
  · rintro ⟨hlow, hhigh⟩
    exact ⟨unit - 0xdc00, by omega, by omega⟩
  · rintro ⟨low, hlt, rfl⟩
    omega

theorem readUnicode_of_halves {cs more rest : List Char} {c : Char} {high low : Nat}
    (hhigh : high < 0x400) (hlow : low < 0x400) (hc : c.toNat = 0x10000 + high * 0x400 + low)
    (hfirst : readUnit cs = .ok (0xd800 + high, '\\' :: 'u' :: more))
    (hsecond : readUnit more = .ok (0xdc00 + low, rest)) : readUnicode cs = .ok (c, rest) := by
  have hisHigh : isHigh (0xd800 + high) := isHigh_iff.mpr ⟨high, hhigh, rfl⟩
  have hisLow : isLow (0xdc00 + low) := isLow_iff.mpr ⟨low, hlow, rfl⟩
  have hjoin : Char.ofNat (joinPair (0xd800 + high) (0xdc00 + low)) = c := by
    rw [joinPair_add, ← hc, Char.ofNat_toNat]
  simp [readUnicode, hfirst, hsecond, bind, Except.bind, hisHigh, hisLow, hjoin]

theorem readUnicode_of_pair {c : Char} {high low : Nat} {first second : List Char}
    (hhigh : high < 0x400) (hlow : low < 0x400) (hc : c.toNat = 0x10000 + high * 0x400 + low)
    (h : Hex (0xd800 + high) first) (h' : Hex (0xdc00 + low) second) (rest : List Char) :
    readUnicode (first ++ '\\' :: 'u' :: second ++ rest) = .ok (c, rest) := by
  have hfirst := readUnit_of_hex h ('\\' :: 'u' :: (second ++ rest))
  rw [List.append_assoc, List.cons_append, List.cons_append]
  exact readUnicode_of_halves hhigh hlow hc hfirst (readUnit_of_hex h' rest)

/-- Whichever way a character is written, it is read, and nothing behind it. -/
theorem readChar_of_writes {c first : Char} {piece : List Char} (h : Writes c (first :: piece))
    (rest : List Char) : readChar first (piece ++ rest) = .ok (c, rest) := by
  cases h with
  | plain hne => simp [readChar, hne]
  | unit hdigits => simp [readChar, readEscape, readUnicode_of_hex hdigits]
  | pair hhigh hlow hc hfirst hsecond =>
    have hread := readUnicode_of_pair hhigh hlow hc hfirst hsecond rest
    simp only [List.append_assoc, List.cons_append] at hread
    simp [readChar, readEscape, hread]
  | _ => rfl

theorem Writes.ne_nil {c : Char} {piece : List Char} (h : Writes c piece) : piece ≠ [] := by
  cases h <;> exact List.cons_ne_nil _ _

theorem unescapeList_of_readChar {first c : Char} {cs rest : List Char}
    (h : readChar first cs = .ok (c, rest)) :
    unescapeList (first :: cs) = (unescapeList rest).map (c :: ·) := by
  rw [unescapeList]
  split
  next e he =>
    rw [h] at he
    cases he
  next d after hd =>
    rw [h] at hd
    cases hd
    cases unescapeList rest with
    | error e => rfl
    | ok out => rfl

theorem unescapeList_of_writesAll {cs text : List Char} (h : WritesAll cs text) :
    unescapeList text = .ok cs := by
  induction h with
  | nil => rw [unescapeList]
  | @cons c cs piece text hc _ ih =>
    obtain ⟨first, piece, rfl⟩ := List.exists_cons_of_ne_nil hc.ne_nil
    rw [List.cons_append, unescapeList_of_readChar (readChar_of_writes hc text), ih]
    rfl

theorem writesAll_of_not_mem {cs : List Char} (h : '\\' ∉ cs) : WritesAll cs cs := by
  induction cs with
  | nil => exact .nil
  | cons c cs ih =>
    rw [List.mem_cons, not_or] at h
    exact .cons (.plain (Ne.symm h.1)) (ih h.2)

/-- Text without a backslash is taken as it is, which is what unescaping would make of it. -/
theorem stringText_of_writesAll {cs text : List Char} (h : WritesAll cs text) :
    JsonCursor.stringText text = .ok (String.ofList cs) := by
  have hread := unescapeList_of_writesAll h
  by_cases hescape : '\\' ∈ text
  · simp [JsonCursor.stringText, hescape, hread]
  · rw [unescapeList_of_writesAll (writesAll_of_not_mem hescape)] at hread
    obtain rfl := Except.ok.inj hread
    exact JsonCursor.stringText_of_not_mem hescape

end Escape

end RowFormat
