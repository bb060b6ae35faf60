import RowFormat.Proofs.JsonGrammar

namespace RowFormat

namespace JsonCursor

open Json (Blank Raw Lexeme Spaced)

theorem isSpace_iff {c : Char} : isSpace c ↔ c = ' ' ∨ c = '\t' ∨ c = '\n' ∨ c = '\r' := by
  simp [isSpace, or_assoc]

theorem isNumberChar_iff {c : Char} :
    isNumberChar c ↔ c.isDigit ∨ c ∈ ['.', 'e', 'E', '+', '-'] := by
  simp [isNumberChar, or_assoc]

theorem blank_takeWhile (cs : List Char) : Blank (cs.takeWhile isSpace) :=
  fun c hc => isSpace_iff.mp (List.all_eq_true.mp List.all_takeWhile c hc)

theorem dropWhile_blank_append {blank cs : List Char} (h : Blank blank) :
    (blank ++ cs).dropWhile isSpace = cs.dropWhile isSpace :=
  List.dropWhile_append_of_pos fun c hc => isSpace_iff.mpr (h c hc)

theorem dropWhile_eq_nil_iff_blank {cs : List Char} : cs.dropWhile isSpace = [] ↔ Blank cs := by
  constructor
  · intro h
    have hsplit := List.takeWhile_append_dropWhile (p := isSpace) (l := cs)
    rw [h, List.append_nil] at hsplit
    rw [← hsplit]
    exact blank_takeWhile cs
  · intro h
    rw [← List.append_nil cs, dropWhile_blank_append h]
    rfl

theorem splitString_eq_some_iff {cs raw rest : List Char} :
    splitString cs = some (raw, rest) ↔ Raw raw ∧ cs = raw ++ '"' :: rest := by
  constructor
  · intro h
    fun_induction splitString cs generalizing raw rest with
    | case1 => cases h
    | case2 => cases h
    | case3 c cs ih =>
      obtain ⟨⟨raw', rest'⟩, hsplit, heq⟩ := Option.map_eq_some_iff.mp h
      cases heq
      obtain ⟨hraw, rfl⟩ := ih hsplit
      exact ⟨.escaped hraw, rfl⟩
    | case4 cs =>
      cases h
      exact ⟨.nil, rfl⟩
    | case5 c cs hlone hpair hquote ih =>
      obtain ⟨⟨raw', rest'⟩, hsplit, heq⟩ := Option.map_eq_some_iff.mp h
      cases heq
      obtain ⟨hraw, rfl⟩ := ih hsplit
      refine ⟨.plain hquote (fun hc => ?_) hraw, rfl⟩
      subst hc
      -- A backslash with something behind it is the case of a pair.
      have hne : raw' ++ '"' :: rest ≠ [] := by simp
      obtain ⟨next, more, hnext⟩ := List.exists_cons_of_ne_nil hne
      exact hpair next more rfl hnext
  · rintro ⟨hraw, rfl⟩
    induction hraw with
    | nil => rfl
    | plain hquote hescape _ ih =>
      rw [List.cons_append, splitString]
      · rw [if_neg hquote, ih]
        rfl
      · intro h
        exact absurd h (by simp [hescape])
      · intro c cs h
        exact absurd h hescape
    | escaped _ ih =>
      rw [List.cons_append, List.cons_append, splitString, ih]
      rfl

theorem stringText_of_not_mem {raw : List Char} (h : '\\' ∉ raw) :
    stringText raw = .ok (String.ofList raw) := by
  simp [stringText, h]

theorem stringText_eq_ok_iff_of_mem {raw : List Char} {text : String} (h : '\\' ∈ raw) :
    stringText raw = .ok text ↔ unescape (String.ofList raw) = .ok text := by
  simp only [stringText, List.contains_iff_mem.mpr h, if_true, unescape, String.toList_ofList]
  cases Escape.unescapeList raw <;> simp [Except.map]

theorem lexeme_of_stringText {raw : List Char} {text : String} (hraw : Raw raw)
    (h : stringText raw = .ok text) : Lexeme (.string text) ('"' :: raw ++ ['"']) := by
  by_cases hescape : '\\' ∈ raw
  · exact .escaped hraw hescape ((stringText_eq_ok_iff_of_mem hescape).mp h)
  · rw [stringText_of_not_mem hescape] at h
    cases h
    exact .plain hraw hescape

theorem lexeme_of_readString {position : Nat} {cs : List Char} {t : JsonToken} {after : JsonCursor}
    (h : readString position cs = .ok (t, after)) :
    ∃ lexeme, Lexeme t lexeme ∧ '"' :: cs = lexeme ++ after.rest := by
  unfold readString at h
  split at h
  · cases h
  · next raw rest hsplit =>
    obtain ⟨hraw, rfl⟩ := splitString_eq_some_iff.mp hsplit
    cases htext : stringText raw with
    | error e =>
      rw [htext] at h
      cases h
    | ok text =>
      rw [htext] at h
      cases h
      exact ⟨_, lexeme_of_stringText hraw htext, by simp⟩

theorem readWord_eq_ok {position : Nat} {cs : List Char} {word : String} {token t : JsonToken}
    {after : JsonCursor} (h : readWord position cs word token = .ok (t, after)) :
    t = token ∧ cs = word.toList ++ after.rest := by
  unfold readWord at h
  split at h
  · next hprefix =>
    cases h
    obtain ⟨rest, rfl⟩ := List.isPrefixOf_iff_prefix.mp hprefix
    rw [← String.length_toList, List.drop_left]
    exact ⟨rfl, rfl⟩
  · cases h

theorem lexeme_of_readNumber {position : Nat} {first : Char} {cs : List Char} {t : JsonToken}
    {after : JsonCursor} (hfirst : first = '-' ∨ first.isDigit)
    (h : readNumber position first cs = .ok (t, after)) :
    ∃ lexeme, Lexeme t lexeme ∧ first :: cs = lexeme ++ after.rest := by
  simp only [readNumber] at h
  split at h
  · next value hread =>
    cases h
    have hcs := List.all_eq_true.mp (List.all_takeWhile (p := isNumberChar) (l := cs))
    refine ⟨_, .number hfirst (fun c hc => isNumberChar_iff.mp (hcs c hc)) hread, ?_⟩
    rw [List.cons_append, List.takeWhile_append_dropWhile]
  · cases h

theorem lexeme_of_punctuation? {c : Char} {t : JsonToken} (h : punctuation? c = some t) :
    Lexeme t [c] := by
  unfold punctuation? at h
  split at h
  · next hc => subst hc; cases h; exact .objectStart
  split at h
  · next hc => subst hc; cases h; exact .objectEnd
  split at h
  · next hc => subst hc; cases h; exact .arrayStart
  split at h
  · next hc => subst hc; cases h; exact .arrayEnd
  split at h
  · next hc => subst hc; cases h; exact .colon
  split at h
  · next hc => subst hc; cases h; exact .comma
  · cases h

theorem lexeme_of_readToken {position : Nat} {first : Char} {cs : List Char} {t : JsonToken}
    {after : JsonCursor} (h : readToken position first cs = .ok (t, after)) :
    ∃ lexeme, Lexeme t lexeme ∧ first :: cs = lexeme ++ after.rest := by
  unfold readToken at h
  split at h
  · next token hpunctuation =>
    cases h
    exact ⟨_, lexeme_of_punctuation? hpunctuation, rfl⟩
  split at h
  · next hquote =>
    subst hquote
    exact lexeme_of_readString h
  split at h
  · obtain ⟨rfl, hword⟩ := readWord_eq_ok h
    exact ⟨_, .true, hword⟩
  split at h
  · obtain ⟨rfl, hword⟩ := readWord_eq_ok h
    exact ⟨_, .false, hword⟩
  split at h
  · obtain ⟨rfl, hword⟩ := readWord_eq_ok h
    exact ⟨_, .null, hword⟩
  split at h
  · next hfirst => exact lexeme_of_readNumber hfirst h
  · cases h

/-- What is read of a text is a token, and what is left is behind it. -/
theorem spaced_of_next {c after : JsonCursor} {t : JsonToken}
    (h : c.next = .ok (some (t, after))) : ∃ text, Spaced t text ∧ c.rest = text ++ after.rest := by
  have hsplit := List.takeWhile_append_dropWhile (p := isSpace) (l := c.rest)
  unfold next at h
  split at h
  · cases h
  · next position first cs hskip =>
    have hrest : c.rest.dropWhile isSpace = first :: cs := congrArg JsonCursor.rest hskip
    cases hread : readToken position first cs with
    | error e =>
      rw [hread] at h
      cases h
    | ok step =>
      rw [hread] at h
      cases h
      obtain ⟨lexeme, hlexeme, htext⟩ := lexeme_of_readToken hread
      refine ⟨_, ⟨_, _, blank_takeWhile c.rest, hlexeme, rfl⟩, ?_⟩
      rw [List.append_assoc, ← htext, ← hrest, hsplit]

/-- Whether the text behind a token cannot be taken for a part of it. -/
def Ends : JsonToken → List Char → Prop
  | .number _, rest => rest.takeWhile isNumberChar = []
  | _, _ => True

theorem ends_of_takeWhile {rest : List Char} (h : rest.takeWhile isNumberChar = []) {t : JsonToken} :
    Ends t rest := by
  cases t with
  | number value => exact h
  | _ => trivial

theorem readNumber_append (position : Nat) {first : Char} {cs rest : List Char} {value : Binary64}
    (hcs : ∀ c ∈ cs, isNumberChar c) (hread : Binary64.read (first :: cs) = .ok value)
    (hend : rest.takeWhile isNumberChar = []) :
    ∃ p, readNumber position first (cs ++ rest) = .ok (.number value, ⟨p, rest⟩) := by
  have htake : (cs ++ rest).takeWhile isNumberChar = cs := by
    rw [List.takeWhile_append_of_pos hcs, hend, List.append_nil]
  have hdrop : (cs ++ rest).dropWhile isNumberChar = rest := by
    have hsplit := List.takeWhile_append_dropWhile (p := isNumberChar) (l := rest)
    rw [hend, List.nil_append] at hsplit
    rw [List.dropWhile_append_of_pos hcs, hsplit]
  simp only [readNumber, htake, hdrop, hread]
  exact ⟨_, rfl⟩

theorem readString_append (position : Nat) {raw : List Char} {text : String} (hraw : Raw raw)
    (htext : stringText raw = .ok text) (rest : List Char) :
    ∃ p, readString position (raw ++ '"' :: rest) = .ok (.string text, ⟨p, rest⟩) := by
  simp only [readString, splitString_eq_some_iff.mpr ⟨hraw, rfl⟩, htext]
  exact ⟨_, rfl⟩

theorem readWord_append (position : Nat) (word : String) (token : JsonToken) (rest : List Char) :
    ∃ p, readWord position (word.toList ++ rest) word token = .ok (token, ⟨p, rest⟩) := by
  have hprefix : word.toList.isPrefixOf (word.toList ++ rest) :=
    List.isPrefixOf_iff_prefix.mpr (List.prefix_append _ _)
  rw [readWord, if_pos hprefix, ← String.length_toList, List.drop_left]
  exact ⟨_, rfl⟩

theorem readToken_of_number {position : Nat} {first : Char} {cs : List Char}
    (h : first = '-' ∨ first.isDigit) :
    readToken position first cs = readNumber position first cs := by
  have hne (c : Char) (hc : ¬(c = '-' ∨ c.isDigit)) : first ≠ c := by
    rintro rfl
    exact hc h
  have hpunctuation : punctuation? first = none := by
    simp [punctuation?, hne '\x7b' (by decide), hne '\x7d' (by decide), hne '[' (by decide),
      hne ']' (by decide), hne ':' (by decide), hne ',' (by decide)]
  simp [readToken, hpunctuation, hne '"' (by decide), hne 't' (by decide), hne 'f' (by decide),
    hne 'n' (by decide), h]

theorem isSpace_of_number {first : Char} (h : first = '-' ∨ first.isDigit) :
    isSpace first = false := by
  cases hspace : isSpace first with
  | false => rfl
  | true => obtain rfl | rfl | rfl | rfl := isSpace_iff.mp hspace <;> exact absurd h (by decide)

theorem readToken_append (position : Nat) {t : JsonToken} {lexeme rest : List Char}
    (h : Lexeme t lexeme) (hend : Ends t rest) :
    ∃ first cs p, lexeme ++ rest = first :: cs ∧ isSpace first = false ∧
      readToken position first cs = .ok (t, ⟨p, rest⟩) := by
  have hstring {raw : List Char} {text : String} (hraw : Raw raw)
      (htext : stringText raw = .ok text) :
      ∃ first cs p, '"' :: raw ++ ['"'] ++ rest = first :: cs ∧ isSpace first = false ∧
        readToken position first cs = .ok (.string text, ⟨p, rest⟩) := by
    obtain ⟨p, hread⟩ := readString_append position hraw htext rest
    exact ⟨'"', raw ++ '"' :: rest, p, by simp, rfl, hread⟩
  cases h with
  | number hfirst hcs hread =>
    have hclass c hc := isNumberChar_iff.mpr (hcs c hc)
    obtain ⟨p, hnumber⟩ := readNumber_append position hclass hread hend
    exact ⟨_, _, p, List.cons_append, isSpace_of_number hfirst,
      (readToken_of_number hfirst).trans hnumber⟩
  | plain hraw hescape => exact hstring hraw (stringText_of_not_mem hescape)
  | escaped hraw hescape htext =>
    exact hstring hraw ((stringText_eq_ok_iff_of_mem hescape).mpr htext)
  | null =>
    obtain ⟨p, hread⟩ := readWord_append position "null" .null rest
    exact ⟨'n', ['u', 'l', 'l'] ++ rest, p, rfl, rfl, hread⟩
  | true =>
    obtain ⟨p, hread⟩ := readWord_append position "true" (.bool true) rest
    exact ⟨'t', ['r', 'u', 'e'] ++ rest, p, rfl, rfl, hread⟩
  | false =>
    obtain ⟨p, hread⟩ := readWord_append position "false" (.bool false) rest
    exact ⟨'f', ['a', 'l', 's', 'e'] ++ rest, p, rfl, rfl, hread⟩
  | _ => exact ⟨_, _, _, rfl, rfl, rfl⟩

/-- A token that is told from what follows it is read, with nothing left of it. -/
theorem next_of_spaced (position : Nat) {t : JsonToken} {text : List Char} (h : Spaced t text)
    (rest : List Char) (hend : Ends t rest) :
    ∃ p, next ⟨position, text ++ rest⟩ = .ok (some (t, ⟨p, rest⟩)) := by
  obtain ⟨blank, lexeme, hblank, hlexeme, rfl⟩ := h
  have hskip : ((blank ++ lexeme) ++ rest).dropWhile isSpace = (lexeme ++ rest).dropWhile isSpace := by
    rw [List.append_assoc, dropWhile_blank_append hblank]
  obtain ⟨first, cs, p, htext, hspace, hread⟩ :=
    readToken_append (skipSpace ⟨position, (blank ++ lexeme) ++ rest⟩).position hlexeme hend
  have hplace : skipSpace ⟨position, (blank ++ lexeme) ++ rest⟩ =
      ⟨(skipSpace ⟨position, (blank ++ lexeme) ++ rest⟩).position, first :: cs⟩ := by
    rw [htext, List.dropWhile_cons, hspace] at hskip
    simp only [skipSpace, hskip]
    rfl
  refine ⟨p, ?_⟩
  rw [next, hplace]
  simp only [hread]
  rfl

end JsonCursor

end RowFormat
