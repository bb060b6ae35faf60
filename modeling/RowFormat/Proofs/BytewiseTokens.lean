import RowFormat.Proofs.BytewiseJson
import RowFormat.Proofs.JsonLexing

namespace RowFormat

theorem length_flatMap_utf8EncodeChar (cs : List Char) :
    (cs.flatMap String.utf8EncodeChar).length = byteCount cs := by
  induction cs with
  | nil => rfl
  | cons c cs ih =>
    rw [List.flatMap_cons, List.length_append, String.length_utf8EncodeChar, ih, byteCount]

theorem size_utf8Encode (cs : List Char) : cs.utf8Encode.size = byteCount cs := by
  rw [List.utf8Encode, List.size_toByteArray, length_flatMap_utf8EncodeChar]

theorem utf8ByteSize_ofList (cs : List Char) : (String.ofList cs).utf8ByteSize = byteCount cs := by
  rw [← String.size_toByteArray, String.toByteArray_ofList, size_utf8Encode]

theorem utf8ByteSize_eq_byteCount (text : String) : text.utf8ByteSize = byteCount text.toList := by
  rw [← utf8ByteSize_ofList, String.ofList_toList]

theorem length_le_byteCount (cs : List Char) : cs.length ≤ byteCount cs := by
  induction cs with
  | nil => exact Nat.le_refl 0
  | cons c cs ih =>
    have hpos := c.utf8Size_pos
    rw [List.length_cons, byteCount]
    omega

theorem byteCount_eq_length {cs : List Char} (h : ∀ c ∈ cs, c.toNat < 0x80) :
    byteCount cs = cs.length := by
  induction cs with
  | nil => rfl
  | cons c cs ih =>
    obtain ⟨hc, hcs⟩ := List.forall_mem_cons.mp h
    have hsize : c.utf8Size = 1 :=
      Char.utf8Size_eq_one_iff.mpr (UInt32.le_iff_toNat_le.mpr (Nat.le_of_lt_succ hc))
    rw [byteCount, hsize, ih hcs, List.length_cons, Nat.add_comm]

namespace Json

namespace Bytewise

open JsonCursor (splitString stringText isSpace isNumberChar punctuation?)

theorem toNat_letter (b : UInt8) : (letter b).toNat = b.toNat := by
  have hb := b.toNat_lt
  have hvalid : b.toNat.isValidChar := .inl (by omega)
  rw [letter, Char.ofNat, dif_pos hvalid]
  rfl

/-- An ASCII character is encoded as the byte with its number; the bytes of any other one are not
ASCII. -/
theorem utf8EncodeChar_cases (c : Char) :
    (c.toNat < 0x80 ∧ ∃ b, String.utf8EncodeChar c = [b] ∧ letter b = c) ∨
      0x80 ≤ c.toNat ∧ ∃ b bs, String.utf8EncodeChar c = b :: bs ∧ ∀ x ∈ b :: bs, 0x80 ≤ x.toNat := by
  by_cases hc : c.toNat < 0x80
  · refine .inl ⟨hc, UInt8.ofNat c.toNat, ?_, ?_⟩
    · have hle : c.val.toNat ≤ 127 := Nat.le_of_lt_succ hc
      simp only [String.utf8EncodeChar, if_pos hle]
      rfl
    · rw [letter, UInt8.toNat_ofNat', Nat.mod_eq_of_lt (by omega), Char.ofNat_toNat]
  · refine .inr ⟨Nat.le_of_not_lt hc, ?_⟩
    have hle : ¬c.val.toNat ≤ 127 := fun h => hc (Nat.lt_succ_of_le h)
    simp only [String.utf8EncodeChar, if_neg hle]
    split
    next => exact ⟨_, _, rfl, by simp; omega⟩
    next =>
      split
      next => exact ⟨_, _, rfl, by simp; omega⟩
      next => exact ⟨_, _, rfl, by simp; omega⟩

/-- A kind of ASCII characters. -/
def IsAscii (isKind : Char → Bool) : Prop := ∀ c, isKind c = true → c.toNat < 0x80

theorem isAscii_isSpace : IsAscii isSpace := by
  intro c hc
  obtain rfl | rfl | rfl | rfl := JsonCursor.isSpace_iff.mp hc <;> decide

theorem isAscii_isDigit : IsAscii Char.isDigit := by
  intro c hc
  have hle := (Char.isDigit_iff_toNat.mp hc).2
  simp only [Char.reduceToNat] at hle
  omega

theorem isAscii_isNumberChar : IsAscii isNumberChar := by
  intro c hc
  rcases JsonCursor.isNumberChar_iff.mp hc with hdigit | hother
  · exact isAscii_isDigit c hdigit
  · simp only [List.mem_cons, List.not_mem_nil, or_false] at hother
    obtain rfl | rfl | rfl | rfl | rfl := hother <;> decide

theorem IsAscii.letter_eq_false {isKind : Char → Bool} (h : IsAscii isKind) {b : UInt8}
    (hb : 0x80 ≤ b.toNat) : isKind (letter b) = false := by
  cases hkind : isKind (letter b) with
  | false => rfl
  | true =>
    have hlt := h _ hkind
    rw [toNat_letter] at hlt
    omega

theorem letter_ne {b : UInt8} (hb : 0x80 ≤ b.toNat) {c : Char} (hc : c.toNat < 0x80) :
    letter b ≠ c := by
  rintro rfl
  rw [toNat_letter] at hc
  omega

/-- The bytes that belong to ASCII characters of some kind are those of these characters. -/
theorem length_takeWhile_letter {isKind : Char → Bool} (h : IsAscii isKind) (cs : List Char) :
    ((cs.flatMap String.utf8EncodeChar).takeWhile fun b => isKind (letter b)).length =
      byteCount (cs.takeWhile isKind) := by
  induction cs with
  | nil => rfl
  | cons c cs ih =>
    rw [List.flatMap_cons]
    rcases utf8EncodeChar_cases c with ⟨hc, b, henc, hletter⟩ | ⟨hc, b, bs, henc, hhigh⟩
    · rw [henc, List.singleton_append, List.takeWhile_cons, List.takeWhile_cons, hletter]
      cases isKind c with
      | false => rfl
      | true =>
        have hsize : c.utf8Size = 1 := by rw [← String.length_utf8EncodeChar, henc]; rfl
        simp only [↓reduceIte, List.length_cons, ih, byteCount, hsize, Nat.add_comm]
    · have hkind : isKind c = false := by
        cases hkind : isKind c with
        | false => rfl
        | true => exact absurd (h c hkind) (Nat.not_lt.mpr hc)
      rw [henc, List.cons_append, List.takeWhile_cons,
        h.letter_eq_false (hhigh b List.mem_cons_self), List.takeWhile_cons, hkind]
      rfl

theorem closing?_cons (i : Nat) (escaped : Bool) (b : UInt8) (bs : List UInt8) :
    closing? i escaped (b :: bs) =
      if letter b = '"' then some (i, escaped)
      else if letter b = '\\' then closing? (i + 2) true bs.tail
      else closing? (i + 1) escaped bs := by
  cases bs with
  | nil => rfl
  | cons _ rest => rw [closing?.eq_def]; rfl

/-- No byte of a character that is not ASCII ends a string or protects another one. -/
theorem closing?_append_of_high {bs : List UInt8} (h : ∀ b ∈ bs, 0x80 ≤ b.toNat) (i : Nat)
    (escaped : Bool) (rest : List UInt8) :
    closing? i escaped (bs ++ rest) = closing? (i + bs.length) escaped rest := by
  induction bs generalizing i with
  | nil => rfl
  | cons b bs ih =>
    obtain ⟨hb, hbs⟩ := List.forall_mem_cons.mp h
    rw [List.cons_append, closing?_cons, if_neg (letter_ne hb (by decide)),
      if_neg (letter_ne hb (by decide)), ih hbs, List.length_cons, Nat.add_comm bs.length,
      Nat.add_assoc]

/-- The search passes through the middle of a character behind a backslash, and finds the end of the
string all the same. -/
theorem closing?_flatMap (i : Nat) (escaped : Bool) (cs : List Char) :
    closing? i escaped (cs.flatMap String.utf8EncodeChar) =
      (splitString cs).map fun (raw, _) => (i + byteCount raw, escaped || raw.contains '\\') := by
  fun_induction splitString cs generalizing i escaped with
  | case1 => rfl
  | case2 => rfl
  | case3 c cs ih =>
    have hbackslash : String.utf8EncodeChar '\\' = [0x5c] := by decide
    obtain ⟨b, bs, henc, hbs⟩ : ∃ b bs,
        String.utf8EncodeChar c = b :: bs ∧ ∀ x ∈ bs, 0x80 ≤ x.toNat := by
      rcases utf8EncodeChar_cases c with ⟨_, b, henc, _⟩ | ⟨_, b, bs, henc, hhigh⟩
      · exact ⟨b, [], henc, List.forall_mem_nil _⟩
      · exact ⟨b, bs, henc, (List.forall_mem_cons.mp hhigh).2⟩
    have hsize : c.utf8Size = bs.length + 1 := by rw [← String.length_utf8EncodeChar, henc]; rfl
    have hone : ('\\').utf8Size = 1 := by decide
    rw [List.flatMap_cons, List.flatMap_cons, hbackslash, henc, List.singleton_append, List.cons_append,
      closing?_cons, if_neg (by decide), if_pos (by decide), List.tail_cons,
      closing?_append_of_high hbs, ih, Option.map_map]
    congr 1
    funext found
    obtain ⟨raw, rest⟩ := found
    simp [byteCount, hsize, hone]
    omega
  | case4 cs =>
    have hquote : String.utf8EncodeChar '"' = [0x22] := by decide
    rw [List.flatMap_cons, hquote, List.singleton_append, closing?_cons, if_pos (by decide)]
    simp [byteCount]
  | case5 c cs hlone hpair hquote ih =>
    have hbackslash : c ≠ '\\' := by
      rintro rfl
      cases cs with
      | nil => exact hlone rfl rfl
      | cons d ds => exact hpair d ds rfl rfl
    have hskip : closing? i escaped (String.utf8EncodeChar c ++ cs.flatMap String.utf8EncodeChar) =
        closing? (i + c.utf8Size) escaped (cs.flatMap String.utf8EncodeChar) := by
      rw [← String.length_utf8EncodeChar]
      rcases utf8EncodeChar_cases c with ⟨_, b, henc, rfl⟩ | ⟨_, b, bs, henc, hhigh⟩
      · rw [henc, List.singleton_append, closing?_cons, if_neg hquote, if_neg hbackslash]
        rfl
      · rw [henc, closing?_append_of_high hhigh]
    rw [List.flatMap_cons, hskip, ih, Option.map_map]
    congr 1
    funext found
    obtain ⟨raw, rest⟩ := found
    simp [byteCount, hbackslash.symm, Nat.add_assoc]

end Bytewise

end Json

/-- A place of a text: it counts the bytes of the characters before those that are left. -/
def JsonCursor.IsAt (text : String) (c : JsonCursor) : Prop :=
  ∃ taken, text.toList = taken ++ c.rest ∧ c.position = byteCount taken

namespace JsonCursor

variable {text : String} {c : JsonCursor} {position : Nat} {front cs : List Char}

/-- Places are between two characters, or at an end of the text. -/
theorem isValid_iff_exists_isAt :
    String.Pos.Raw.IsValid text ⟨position⟩ ↔ ∃ rest, IsAt text ⟨position, rest⟩ := by
  rw [String.Pos.Raw.isValid_iff_exists_append]
  constructor
  · rintro ⟨before, behind, rfl, hposition⟩
    refine ⟨behind.toList, before.toList, String.toList_append, ?_⟩
    rw [← utf8ByteSize_eq_byteCount]
    exact congrArg String.Pos.Raw.byteIdx hposition
  · rintro ⟨rest, taken, htext, rfl⟩
    refine ⟨.ofList taken, .ofList rest, ?_, ?_⟩
    · rw [← String.ofList_append, ← htext, String.ofList_toList]
    · rw [← utf8ByteSize_ofList]
      rfl

theorem IsAt.ofText (text : String) : IsAt text (ofText text) := ⟨[], rfl, rfl⟩

theorem IsAt.behind (h : IsAt text ⟨position, front ++ cs⟩) :
    IsAt text ⟨position + byteCount front, cs⟩ := by
  obtain ⟨taken, htext, rfl⟩ := h
  exact ⟨taken ++ front, by rw [htext, List.append_assoc], (byteCount_append taken front).symm⟩

theorem IsAt.tail {first : Char} (h : IsAt text ⟨position, first :: cs⟩) :
    IsAt text ⟨position + first.utf8Size, cs⟩ := by
  have hbehind : IsAt text ⟨position + byteCount [first], cs⟩ := IsAt.behind (by exact h)
  exact hbehind

theorem IsAt.skipSpace (h : IsAt text c) : IsAt text c.skipSpace := by
  have hsplit : IsAt text ⟨c.position, c.rest.takeWhile isSpace ++ c.rest.dropWhile isSpace⟩ := by
    rw [List.takeWhile_append_dropWhile]
    exact h
  exact hsplit.behind

theorem IsAt.position_add (h : IsAt text c) : c.position + byteCount c.rest = text.utf8ByteSize := by
  obtain ⟨taken, htext, hposition⟩ := h
  rw [utf8ByteSize_eq_byteCount, htext, byteCount_append, hposition]

/-- There are no more characters left than bytes. -/
theorem IsAt.length_le (h : IsAt text c) : c.rest.length ≤ text.utf8ByteSize - c.position := by
  have hle := length_le_byteCount c.rest
  have hend := h.position_add
  omega

theorem IsAt.bytesFrom (h : IsAt text c) :
    Json.Bytewise.bytesFrom text c.position = c.rest.flatMap String.utf8EncodeChar := by
  obtain ⟨taken, htext, hposition⟩ := h
  rw [Json.Bytewise.bytesFrom, ← String.utf8Encode_toList, htext, List.utf8Encode,
    List.toList_data_toByteArray, List.flatMap_append, hposition, ← length_flatMap_utf8EncodeChar,
    List.drop_left]

theorem IsAt.isSpace_of_blank (h : IsAt text c) (hblank : Json.Blank c.rest) :
    ∀ b ∈ Json.Bytewise.bytesFrom text c.position, isSpace (Json.Bytewise.letter b) := by
  intro b hb
  rw [h.bytesFrom] at hb
  obtain ⟨space, hspace, hbyte⟩ := List.mem_flatMap.mp hb
  have hkind : isSpace space := isSpace_iff.mpr (hblank space hspace)
  rcases Json.Bytewise.utf8EncodeChar_cases space with ⟨-, x, henc, rfl⟩ | ⟨hhigh, -⟩
  · rw [henc, List.mem_singleton] at hbyte
    rwa [hbyte]
  · exact absurd (Json.Bytewise.isAscii_isSpace space hkind) (Nat.not_lt.mpr hhigh)

theorem IsAt.skip (h : IsAt text c) {isKind : Char → Bool} (hkind : Json.Bytewise.IsAscii isKind) :
    Json.Bytewise.skip isKind text c.position = c.position + byteCount (c.rest.takeWhile isKind) := by
  rw [Json.Bytewise.skip, h.bytesFrom, Json.Bytewise.length_takeWhile_letter hkind]

end JsonCursor

namespace Json

namespace Bytewise

open JsonCursor (IsAt isSpace isNumberChar punctuation? splitString stringText)

variable {α β : Type} {text : String} {position : Nat} {first : Char} {cs : List Char} {c : JsonCursor}

theorem pos?_eq_some_iff {place : String.Pos.Raw} {p : text.Pos} :
    text.pos? place = some p ↔ place.IsValid text ∧ p.offset = place := by
  by_cases h : place.IsValid text
  · have hpos : text.pos? place = some (text.pos place h) := by
      have hslice : place.isValidForSlice text.toSlice = true := by simpa using h
      rw [String.pos?, String.Slice.pos?, dif_pos hslice]
      rfl
    rw [hpos, Option.some.injEq, String.Pos.ext_iff, String.offset_pos]
    simp [h, eq_comm]
  · have hslice : ¬place.isValidForSlice text.toSlice = true := by simpa using h
    rw [String.pos?, String.Slice.pos?, dif_neg hslice]
    simp [h]

theorem slice?_eq_some_iff {start stop : Nat} {part : String} :
    slice? text start stop = some part ↔ start ≤ stop ∧
      String.Pos.Raw.IsValid text ⟨start⟩ ∧ String.Pos.Raw.IsValid text ⟨stop⟩ ∧
      part.toByteArray = text.toByteArray.extract start stop := by
  simp only [slice?, bind, Option.bind_eq_some_iff, pos?_eq_some_iff, String.slice?, pure]
  constructor
  · rintro ⟨first, ⟨hfirst, hstart⟩, last, ⟨hlast, hstop⟩, found, hfound, hpart⟩
    split at hfound
    next hle =>
      obtain rfl := Option.some.inj hfound
      obtain rfl := Option.some.inj hpart
      rw [String.toByteArray_copy_slice, hstart, hstop]
      refine ⟨?_, hfirst, hlast, rfl⟩
      rw [String.Pos.le_iff, hstart, hstop] at hle
      exact hle
    next => cases hfound
  · rintro ⟨hle, hfirst, hlast, hpart⟩
    have hle' : text.pos _ hfirst ≤ text.pos _ hlast := by
      rw [String.Pos.le_iff]
      exact hle
    refine ⟨text.pos _ hfirst, ⟨hfirst, rfl⟩, text.pos _ hlast, ⟨hlast, rfl⟩, _, dif_pos hle', ?_⟩
    rw [Option.some.injEq, ← String.toByteArray_inj, String.toByteArray_copy_slice, hpart]
    rfl

/-- A part of the text is there exactly between two places where no character is cut. -/
theorem exists_slice?_iff {start stop : Nat} :
    (∃ part, slice? text start stop = some part) ↔ start ≤ stop ∧
      String.Pos.Raw.IsValid text ⟨start⟩ ∧ String.Pos.Raw.IsValid text ⟨stop⟩ := by
  simp only [slice?_eq_some_iff]
  constructor
  · rintro ⟨part, hle, hfirst, hlast, -⟩
    exact ⟨hle, hfirst, hlast⟩
  · rintro ⟨hle, hfirst, hlast⟩
    exact ⟨(text.slice (text.pos _ hfirst) (text.pos _ hlast) hle).copy, hle, hfirst, hlast,
      String.toByteArray_copy_slice⟩

theorem slice?_of_isAt {part rest : List Char} (h : IsAt text ⟨position, part ++ rest⟩) :
    slice? text position (position + byteCount part) = some (String.ofList part) := by
  have hfirst := JsonCursor.isValid_iff_exists_isAt.mpr ⟨_, h⟩
  have hlast := JsonCursor.isValid_iff_exists_isAt.mpr ⟨_, h.behind⟩
  obtain ⟨taken, htext, hposition : position = byteCount taken⟩ := h
  have hbytes : text.toByteArray = taken.utf8Encode ++ (part.utf8Encode ++ rest.utf8Encode) := by
    rw [← String.utf8Encode_toList, htext, List.utf8Encode_append, List.utf8Encode_append]
  have hpart := ByteArray.extract_append_size_add (a := taken.utf8Encode)
    (b := part.utf8Encode ++ rest.utf8Encode) (i := 0) (j := byteCount part)
  rw [← hbytes, size_utf8Encode, Nat.add_zero, ← hposition,
    ByteArray.extract_append_eq_left (size_utf8Encode part).symm] at hpart
  rw [slice?_eq_some_iff, hpart]
  exact ⟨Nat.le_add_right _ _, hfirst, hlast, String.toByteArray_ofList⟩

/-- Two readings agree if the one on bytes has an answer, which is that of the other, and comes to
the place where the other one is. -/
def Agrees (text : String) (bytes : Scan (α × Nat)) (chars : Except JsonError (α × JsonCursor)) :
    Prop :=
  bytes.run = some (chars.map fun (value, c) => (value, c.position)) ∧
    ∀ value c, chars = .ok (value, c) → IsAt text c

theorem Agrees.ok (value : α) (h : IsAt text c) (hposition : c.position = position) :
    Agrees text (pure (value, position)) (.ok (value, c)) := by
  subst hposition
  refine ⟨rfl, ?_⟩
  rintro _ _ ⟨⟩
  exact h

theorem Agrees.error (e : JsonError) :
    Agrees text (throw e) (.error e : Except JsonError (α × JsonCursor)) :=
  ⟨rfl, nofun⟩

/-- What the one reading goes on to, the other does. -/
theorem Agrees.run_bind {bytes : Scan (α × Nat)} {chars : Except JsonError (α × JsonCursor)}
    {f : α × Nat → Scan β} {g : α × JsonCursor → Except JsonError β} (h : Agrees text bytes chars)
    (hrest : ∀ value c, chars = .ok (value, c) → IsAt text c →
      (f (value, c.position)).run = some (g (value, c))) :
    (bytes >>= f).run = some (chars >>= g) := by
  obtain ⟨hrun, hplace⟩ := h
  rw [ExceptT.run_bind, hrun]
  cases chars with
  | error e => rfl
  | ok found => exact hrest found.1 found.2 rfl (hplace _ _ rfl)

theorem Agrees.bind {bytes : Scan (α × Nat)} {chars : Except JsonError (α × JsonCursor)}
    {f : α × Nat → Scan (β × Nat)} {g : α × JsonCursor → Except JsonError (β × JsonCursor)}
    (h : Agrees text bytes chars)
    (hrest : ∀ value c, chars = .ok (value, c) → IsAt text c →
      Agrees text (f (value, c.position)) (g (value, c))) :
    Agrees text (bytes >>= f) (chars >>= g) := by
  constructor
  · have hrun := h.run_bind (g := fun found => (g found).map fun (value, c) => (value, c.position))
      fun value c hread hc => (hrest value c hread hc).1
    rw [hrun]
    cases chars <;> rfl
  · cases chars with
    | error e => exact nofun
    | ok found => exact (hrest found.1 found.2 rfl (h.2 _ _ rfl)).2

theorem slice_bind {part : String} {start stop : Nat} (h : slice? text start stop = some part)
    (f : String → Scan β) : (slice text start stop >>= f) = f part := by
  rw [slice, h]
  rfl

theorem readWord_agrees (h : IsAt text ⟨position, cs⟩) {word : String}
    (hword : word.utf8ByteSize = word.length) (token : JsonToken) :
    Agrees text (readWord text position word token) (JsonCursor.readWord position cs word token) := by
  have hslice : slice? text position text.utf8ByteSize = some (String.ofList cs) := by
    rw [← h.position_add]
    have hall : IsAt text ⟨position, cs ++ []⟩ := by rwa [List.append_nil]
    exact slice?_of_isAt hall
  rw [readWord, slice_bind hslice, String.toList_ofList, hword, JsonCursor.readWord]
  split
  next hprefix =>
    obtain ⟨rest, rfl⟩ := List.isPrefixOf_iff_prefix.mp hprefix
    refine .ok token ?_ rfl
    rw [← String.length_toList, List.drop_left, String.length_toList, ← hword,
      utf8ByteSize_eq_byteCount]
    exact h.behind
  next => exact .error _

theorem readNumber_agrees (h : IsAt text ⟨position, first :: cs⟩) (hfirst : isNumberChar first) :
    Agrees text (readNumber text position) (JsonCursor.readNumber position first cs) := by
  have hone : first.utf8Size = 1 := by
    have hcount : byteCount [first] = [first].length := byteCount_eq_length
      fun c hc => isAscii_isNumberChar c (List.mem_singleton.mp hc ▸ hfirst)
    simpa [byteCount] using hcount
  have hsplit := List.takeWhile_append_dropWhile (p := isNumberChar) (l := cs)
  have hcount : byteCount (first :: cs.takeWhile isNumberChar) =
      (first :: cs.takeWhile isNumberChar).length := by
    refine byteCount_eq_length fun c hc => isAscii_isNumberChar c ?_
    rcases List.mem_cons.mp hc with rfl | hc
    · exact hfirst
    · exact List.all_eq_true.mp List.all_takeWhile c hc
  have hat : IsAt text ⟨position, first :: cs.takeWhile isNumberChar ++ cs.dropWhile isNumberChar⟩ := by
    rwa [List.cons_append, hsplit]
  have hstop : skip isNumberChar text (position + 1) =
      position + byteCount (first :: cs.takeWhile isNumberChar) := by
    have htail := h.tail
    rw [hone] at htail
    rw [htail.skip isAscii_isNumberChar, byteCount, hone, Nat.add_assoc]
  simp only [readNumber, JsonCursor.readNumber, hstop]
  rw [slice_bind (slice?_of_isAt hat), String.toList_ofList]
  cases Binary64.read (first :: cs.takeWhile isNumberChar) with
  | ok value =>
    rw [hcount]
    refine .ok _ ?_ rfl
    rw [← hcount]
    exact hat.behind
  | error e => exact .error _

theorem readString_agrees (h : IsAt text ⟨position, '"' :: cs⟩) :
    Agrees text (readString text position) (JsonCursor.readString position cs) := by
  have htail : IsAt text ⟨position + 1, cs⟩ := h.tail
  rw [readString, htail.bytesFrom, closing?_flatMap, JsonCursor.readString]
  cases hsplit : splitString cs with
  | none => exact .error _
  | some found =>
    obtain ⟨raw, rest⟩ := found
    obtain ⟨-, rfl⟩ := JsonCursor.splitString_eq_some_iff.mp hsplit
    have hrest : IsAt text ⟨position + byteCount raw + 2, rest⟩ := by
      have hquote : ('"').utf8Size = 1 := by decide
      have hbehind := htail.behind.tail
      rwa [hquote, Nat.add_right_comm position, Nat.add_assoc] at hbehind
    simp only [Option.map_some, Bool.false_or, slice_bind (slice?_of_isAt htail), stringText, unescape,
      String.toList_ofList]
    cases raw.contains '\\' with
    | false => exact .ok _ hrest (by simp only; omega)
    | true =>
      cases Escape.unescapeList raw with
      | error e => exact .error _
      | ok value => exact .ok _ hrest (by simp only; omega)

/-- A character that is not ASCII begins no token. -/
theorem begins_nothing (h : 0x80 ≤ first.toNat) : punctuation? first = none ∧ first ≠ '"' ∧
    first ≠ 't' ∧ first ≠ 'f' ∧ first ≠ 'n' ∧ ¬(first = '-' ∨ first.isDigit) := by
  have hne {d : Char} (hd : d.toNat < 0x80) : first ≠ d := by
    rintro rfl
    exact Nat.not_lt.mpr h hd
  have hpunctuation : punctuation? first = none := by
    simp [punctuation?, hne (d := '\x7b') (by decide), hne (d := '\x7d') (by decide),
      hne (d := '[') (by decide), hne (d := ']') (by decide), hne (d := ':') (by decide),
      hne (d := ',') (by decide)]
  refine ⟨hpunctuation, hne (by decide), hne (by decide), hne (by decide), hne (by decide), ?_⟩
  rintro (hminus | hdigit)
  · exact hne (by decide) hminus
  · exact Nat.not_lt.mpr h (isAscii_isDigit first hdigit)

theorem readToken_agrees (h : IsAt text ⟨position, first :: cs⟩) :
    ∃ b bs, bytesFrom text position = b :: bs ∧
      Agrees text (readToken text position b) (JsonCursor.readToken position first cs) := by
  rcases utf8EncodeChar_cases first with ⟨hfirst, b, henc, rfl⟩ | ⟨hfirst, b, bs, henc, hhigh⟩
  · refine ⟨b, _, by rw [h.bytesFrom, List.flatMap_cons, henc]; rfl, ?_⟩
    have hone : (letter b).utf8Size = 1 := by rw [← String.length_utf8EncodeChar, henc]; rfl
    cases hpunctuation : punctuation? (letter b) with
    | some token =>
      simp only [readToken, JsonCursor.readToken, hpunctuation]
      rw [← hone]
      exact .ok token h.tail rfl
    | none =>
      simp only [readToken, JsonCursor.readToken, hpunctuation, henc, List.headD_cons]
      split
      next hquote =>
        rw [hquote] at h
        exact readString_agrees h
      split
      next => exact readWord_agrees h (by decide) _
      split
      next => exact readWord_agrees h (by decide) _
      split
      next => exact readWord_agrees h (by decide) _
      split
      next hnumber =>
        refine readNumber_agrees h (JsonCursor.isNumberChar_iff.mpr ?_)
        rcases hnumber with hminus | hdigit
        · exact .inr (by simp [hminus])
        · exact .inl hdigit
      next => exact .error _
  · refine ⟨b, _, by rw [h.bytesFrom, List.flatMap_cons, henc]; rfl, ?_⟩
    have hb : 0x80 ≤ (letter b).toNat := toNat_letter b ▸ hhigh b List.mem_cons_self
    simp only [readToken, JsonCursor.readToken, begins_nothing hb, begins_nothing hfirst, if_false, henc,
      List.headD_cons]
    exact .error _

/-- What a reading of the next token comes to: the token, if there is one, and the place behind it. -/
def placed (c : JsonCursor) : Option (JsonToken × JsonCursor) → Option JsonToken × JsonCursor
  | none => (none, c.skipSpace)
  | some (token, after) => (some token, after)

/-- The tokens of the bytes are those of the characters. -/
theorem next_agrees (h : IsAt text c) : Agrees text (next text c.position) (c.next.map (placed c)) := by
  have hstart : skip isSpace text c.position = c.skipSpace.position := h.skip isAscii_isSpace
  have hspace := h.skipSpace
  rw [next, hstart, JsonCursor.next]
  cases hplace : c.skipSpace with
  | mk place rest =>
    rw [hplace] at hspace
    cases rest with
    | nil =>
      have hbytes : bytesFrom text place = [] := hspace.bytesFrom
      simp only [hbytes, Except.map, placed, hplace]
      exact .ok none hspace rfl
    | cons first cs =>
      obtain ⟨b, bs, hbytes, hagrees⟩ := readToken_agrees hspace
      simp only [hbytes]
      have hread : ((JsonCursor.readToken place first cs).map some).map (placed c) =
          JsonCursor.readToken place first cs >>= fun step => .ok (some step.1, step.2) := by
        cases JsonCursor.readToken place first cs <;> rfl
      rw [hread]
      exact hagrees.bind fun token after _ hafter => .ok (some token) hafter rfl

/-- What is behind a token is a place of the text again, further on. -/
theorem lt_of_next {t : JsonToken} {after : JsonCursor} (h : IsAt text c)
    (hnext : c.next = .ok (some (t, after))) : IsAt text after ∧ c.position < after.position := by
  have hafter : IsAt text after := (next_agrees h).2 (some t) after (by rw [hnext]; rfl)
  obtain ⟨taken, -, hrest⟩ := JsonCursor.spaced_of_next hnext
  have hshort := JsonCursor.next_length hnext
  have hend := h.position_add
  rw [hrest, byteCount_append, ← hafter.position_add] at hend
  cases taken with
  | nil =>
    rw [hrest, List.nil_append] at hshort
    exact absurd hshort (Nat.lt_irrefl _)
  | cons first cs =>
    have hpos := first.utf8Size_pos
    rw [byteCount] at hend
    refine ⟨hafter, ?_⟩
    omega

/-- Where no token is left, nothing but space is. -/
theorem blank_of_next (hnext : c.next = .ok none) : Blank c.rest := by
  rw [← JsonCursor.dropWhile_eq_nil_iff_blank]
  rw [JsonCursor.next] at hnext
  split at hnext
  next position hplace => exact congrArg JsonCursor.rest hplace
  next position first cs _ =>
    cases hread : JsonCursor.readToken position first cs with
    | error e => rw [hread] at hnext; cases hnext
    | ok step => rw [hread] at hnext; cases hnext

end Bytewise

end Json

end RowFormat
