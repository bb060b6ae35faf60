import RowFormat.Json.Error

namespace RowFormat

/-- A place in a text: the number of bytes before it and the characters behind it. -/
structure JsonCursor where
  position : Nat
  rest : List Char
deriving DecidableEq

namespace JsonCursor

def ofText (text : String) : JsonCursor := ⟨0, text.toList⟩

/-- The characters between tokens. -/
def isSpace (c : Char) : Bool := c == ' ' || c == '\t' || c == '\n' || c == '\r'

def skipSpace (c : JsonCursor) : JsonCursor :=
  ⟨c.position + byteCount (c.rest.takeWhile isSpace), c.rest.dropWhile isSpace⟩

/-- Splits text behind an opening quote at the closing one. A backslash protects the character
after it. -/
def splitString : List Char → Option (List Char × List Char)
  | [] => none
  | ['\\'] => none
  | '\\' :: c :: cs => (splitString cs).map fun (raw, rest) => ('\\' :: c :: raw, rest)
  | c :: cs =>
    if c = '"' then some ([], cs) else (splitString cs).map fun (raw, rest) => (c :: raw, rest)

/-- The text that the raw text of a string stands for. -/
def stringText (raw : List Char) : Except JsonError String :=
  if raw.contains '\\' then
    match Escape.unescapeList raw with
    | .ok cs => .ok (String.ofList cs)
    | .error e => .error (.escape e)
  else .ok (String.ofList raw)

/-- The characters that a number may go on with, in any order. -/
def isNumberChar (c : Char) : Bool :=
  c.isDigit || c == '.' || c == 'e' || c == 'E' || c == '+' || c == '-'

/-- A token and the place after it. -/
abbrev Step := Except JsonError (JsonToken × JsonCursor)

/-- Reads a string whose opening quote stands at `position`. -/
def readString (position : Nat) (cs : List Char) : Step :=
  match splitString cs with
  | none => .error (.unterminatedString position)
  | some (raw, rest) =>
    (stringText raw).map fun text => (.string text, ⟨position + byteCount raw + 2, rest⟩)

/-- Reads a word that stands for one token. -/
def readWord (position : Nat) (cs : List Char) (word : String) (token : JsonToken) : Step :=
  if word.toList.isPrefixOf cs then
    .ok (token, ⟨position + word.length, cs.drop word.length⟩)
  else .error (.expectedWord word position)

/-- Reads a number that begins with the character `first`. -/
def readNumber (position : Nat) (first : Char) (cs : List Char) : Step :=
  let text := first :: cs.takeWhile isNumberChar
  match Binary64.read text with
  | .ok value => .ok (.number value, ⟨position + text.length, cs.dropWhile isNumberChar⟩)
  | .error e => .error (.invalidNumber (String.ofList text) position e)

/-- The tokens of one character. -/
def punctuation? (c : Char) : Option JsonToken :=
  if c = '\x7b' then some .objectStart
  else if c = '\x7d' then some .objectEnd
  else if c = '[' then some .arrayStart
  else if c = ']' then some .arrayEnd
  else if c = ':' then some .colon
  else if c = ',' then some .comma
  else none

/-- Reads the token that begins with the character `first`. -/
def readToken (position : Nat) (first : Char) (cs : List Char) : Step :=
  match punctuation? first with
  | some token => .ok (token, ⟨position + 1, cs⟩)
  | none =>
    if first = '"' then readString position cs
    else if first = 't' then readWord position (first :: cs) "true" (.bool true)
    else if first = 'f' then readWord position (first :: cs) "false" (.bool false)
    else if first = 'n' then readWord position (first :: cs) "null" .null
    else if first = '-' ∨ first.isDigit then readNumber position first cs
    else .error (.unexpectedCharacter ((String.utf8EncodeChar first).headD 0) position)

/-- The next token and the place after it, or nothing at the end of the text. -/
def next (c : JsonCursor) : Except JsonError (Option (JsonToken × JsonCursor)) :=
  match c.skipSpace with
  | ⟨_, []⟩ => .ok none
  | ⟨position, first :: cs⟩ => (readToken position first cs).map some

theorem length_dropWhile_le (p : Char → Bool) (cs : List Char) :
    (cs.dropWhile p).length ≤ cs.length :=
  (List.dropWhile_sublist p).length_le

theorem splitString_length {cs raw rest : List Char} (h : splitString cs = some (raw, rest)) :
    rest.length < cs.length := by
  fun_induction splitString cs generalizing raw rest with
  | case1 => cases h
  | case2 => cases h
  | case3 c cs ih =>
    obtain ⟨⟨raw', rest'⟩, hs, he⟩ := Option.map_eq_some_iff.1 h
    cases he
    have := ih hs
    simp only [List.length_cons]
    omega
  | case4 cs =>
    cases h
    simp
  | case5 c cs _ _ _ ih =>
    obtain ⟨⟨raw', rest'⟩, hs, he⟩ := Option.map_eq_some_iff.1 h
    cases he
    have := ih hs
    simp only [List.length_cons]
    omega

theorem readWord_length {position : Nat} {cs : List Char} {word : String} {token t : JsonToken}
    {c : JsonCursor} (hw : 0 < word.length) (hc : cs ≠ [])
    (h : readWord position cs word token = .ok (t, c)) : c.rest.length < cs.length := by
  unfold readWord at h
  split at h
  · cases h
    have := List.length_pos_iff.mpr hc
    simp only [List.length_drop]
    omega
  · cases h

theorem readToken_length {position : Nat} {first : Char} {cs : List Char} {t : JsonToken}
    {c : JsonCursor} (h : readToken position first cs = .ok (t, c)) :
    c.rest.length ≤ cs.length := by
  unfold readToken at h
  split at h
  · cases h
    exact Nat.le_refl _
  · split at h
    · unfold readString at h
      split at h
      · cases h
      · next raw rest hs =>
        have := splitString_length hs
        cases ht : stringText raw with
        | error e => rw [ht] at h; cases h
        | ok text =>
          rw [ht] at h
          cases h
          exact Nat.le_of_lt this
    · split at h
      · exact Nat.le_of_lt_succ (readWord_length (by decide) (List.cons_ne_nil _ _) h)
      · split at h
        · exact Nat.le_of_lt_succ (readWord_length (by decide) (List.cons_ne_nil _ _) h)
        · split at h
          · exact Nat.le_of_lt_succ (readWord_length (by decide) (List.cons_ne_nil _ _) h)
          · split at h
            · simp only [readNumber] at h
              split at h
              · cases h
                exact length_dropWhile_le _ _
              · cases h
            · cases h

/-- Every token takes at least one character. -/
theorem next_length {c after : JsonCursor} {t : JsonToken}
    (h : c.next = .ok (some (t, after))) : after.rest.length < c.rest.length := by
  unfold next at h
  have hs : c.skipSpace.rest.length ≤ c.rest.length := length_dropWhile_le _ _
  split at h
  · cases h
  · next position first cs hc =>
    cases hr : readToken position first cs with
    | error e => rw [hr] at h; cases h
    | ok step =>
      rw [hr] at h
      cases h
      have := readToken_length hr
      rw [hc] at hs
      simp only [List.length_cons] at hs
      omega

end JsonCursor

end RowFormat
