import RowFormat.Proofs.BytewiseTokens

namespace RowFormat

/-- The next token in the middle of some part of a document, and the place after it. -/
def JsonCursor.nextWithin (part : JsonPlace) (c : JsonCursor) :
    Except JsonError (JsonToken × JsonCursor) :=
  match c.next with
  | .error e => .error e
  | .ok none => .error (.unexpectedEnd part c.skipSpace.position)
  | .ok (some step) => .ok step

namespace JsonCursor

variable {c after : JsonCursor} {part : JsonPlace} {t : JsonToken}

theorem nextWithin_of_error {e : JsonError} (h : c.next = .error e) : c.nextWithin part = .error e := by
  simp only [nextWithin, h]

theorem nextWithin_of_none (h : c.next = .ok none) :
    c.nextWithin part = .error (.unexpectedEnd part c.skipSpace.position) := by
  simp only [nextWithin, h]

theorem nextWithin_of_some (h : c.next = .ok (some (t, after))) :
    c.nextWithin part = .ok (t, after) := by
  simp only [nextWithin, h]

theorem nextWithin_length (h : c.nextWithin part = .ok (t, after)) :
    after.rest.length < c.rest.length := by
  unfold nextWithin at h
  split at h
  next => cases h
  next => cases h
  next step hnext =>
    obtain rfl := Except.ok.inj h
    exact next_length hnext

end JsonCursor

namespace Json

open JsonCursor (nextWithin_of_error nextWithin_of_none nextWithin_of_some nextWithin_length)

section

variable {α β γ : Type} {c place : JsonCursor} {value : α}

theorem ok_bind (x : α) (f : α → Except JsonError β) : (Except.ok x >>= f) = f x := rfl

/-- What was read and the place after it, without a bound on what is left. -/
def forget (parsed : Except JsonError (Parsed α c)) : Except JsonError (α × JsonCursor) :=
  parsed.map fun p => (p.value, p.place)

theorem forget_length {parsed : Except JsonError (Parsed α c)}
    (h : forget parsed = .ok (value, place)) :
    place.rest.length ≤ c.rest.length := by
  cases parsed with
  | error e => cases h
  | ok p =>
    cases h
    exact p.le

theorem forget_mapped {first : JsonCursor} (read : Except JsonError (Parsed α first)) (f : α → β)
    (hle : ∀ p : Parsed α first, p.place.rest.length ≤ c.rest.length) :
    forget (c := c) (read >>= fun p => .ok ⟨f p.value, p.place, hle p⟩) =
      forget read >>= fun (x, place) => .ok (f x, place) := by
  cases read <;> rfl

theorem forget_both {first : JsonCursor} (read : Except JsonError (Parsed α first))
    (readRest : (mid : JsonCursor) → Except JsonError (Parsed β mid)) (join : α → β → γ)
    (hle : ∀ (p : Parsed α first) (q : Parsed β p.place), q.place.rest.length ≤ c.rest.length) :
    forget (c := c) (read >>= fun p => readRest p.place >>= fun q =>
        .ok ⟨join p.value q.value, q.place, hle p q⟩) =
      forget read >>= fun (x, mid) => forget (readRest mid) >>= fun (y, place) =>
        .ok (join x y, place) := by
  cases read with
  | error e => rfl
  | ok p =>
    show forget (readRest p.place >>= _) = forget (readRest p.place) >>= _
    cases readRest p.place <;> rfl

theorem forget_parts {first : JsonCursor} (read : Except JsonError (Parsed α first))
    (readRest : (mid : JsonCursor) → Except JsonError (Parsed (List α) mid)) (wrap : List α → β)
    (hle : ∀ (p : Parsed α first) (q : Parsed (List α) p.place),
      q.place.rest.length ≤ c.rest.length) :
    forget (c := c) (read >>= fun p => readRest p.place >>= fun q =>
        .ok ⟨wrap (p.value :: q.value), q.place, hle p q⟩) =
      (forget read >>= fun (x, mid) => forget (readRest mid) >>= fun (xs, place) =>
        .ok (x :: xs, place)) >>= fun (xs, place) => .ok (wrap xs, place) := by
  rw [forget_both read readRest (fun x xs => wrap (x :: xs)), bind_assoc]
  refine bind_congr fun found => ?_
  rw [bind_assoc]
  rfl

end

variable {limit depth : Nat} {c : JsonCursor}

theorem forget_parseItems : forget (parseItems limit depth c) =
    readMore (JsonCursor.nextWithin .array) (JsonCursor.nextWithin .value) .arrayEnd
      (fun token after => .error (.expectedInArray token after.position))
      (fun first after => forget (parseValue limit depth first after))
      (fun mid => forget (parseItems limit depth mid)) c := by
  rw [parseItems, readMore]
  split
  next e hnext => rw [nextWithin_of_error hnext]; rfl
  next hnext => rw [nextWithin_of_none hnext]; rfl
  next after hnext => rw [nextWithin_of_some hnext]; rfl
  next comma hcomma =>
    rw [nextWithin_of_some hcomma, ok_bind]
    split
    next e hfirst => simp only [nextWithin_of_error hfirst]; rfl
    next hfirst => simp only [nextWithin_of_none hfirst]; rfl
    next first after hfirst =>
      simp only [nextWithin_of_some hfirst]
      exact forget_both (parseValue limit depth first after) (parseItems limit depth) List.cons _
  next other after hclose hcomma hnext =>
    simp only [nextWithin_of_some hnext, ok_bind, if_neg hclose, if_neg hcomma]
    rfl

theorem forget_parseEntries : forget (parseEntries limit depth c) =
    readMore (JsonCursor.nextWithin .object) (JsonCursor.nextWithin .object) .objectEnd
      (fun token after => .error (.expectedInObject token after.position))
      (fun first after => forget (parseEntry limit depth first after))
      (fun mid => forget (parseEntries limit depth mid)) c := by
  rw [parseEntries, readMore]
  split
  next e hnext => rw [nextWithin_of_error hnext]; rfl
  next hnext => rw [nextWithin_of_none hnext]; rfl
  next after hnext => rw [nextWithin_of_some hnext]; rfl
  next comma hcomma =>
    rw [nextWithin_of_some hcomma, ok_bind]
    split
    next e hfirst => simp only [nextWithin_of_error hfirst]; rfl
    next hfirst => simp only [nextWithin_of_none hfirst]; rfl
    next first after hfirst =>
      simp only [nextWithin_of_some hfirst]
      exact forget_both (parseEntry limit depth first after) (parseEntries limit depth) List.cons _
  next other after hclose hcomma hnext =>
    simp only [nextWithin_of_some hnext, ok_bind, if_neg hclose, if_neg hcomma]
    rfl

theorem forget_parseEntry {key : String} : forget (parseEntry limit depth (.string key) c) =
    c.next.map (Bytewise.placed c) >>= fun
      | (some .colon, colon) => colon.nextWithin .value >>= fun (first, after) =>
        forget (parseValue limit depth first after) >>= fun (value, place) =>
          .ok ((key, value), place)
      | (_, after) => .error (.expectedColon after.position) := by
  rw [parseEntry]
  split
  next e hnext => rw [hnext]; rfl
  next hnext => rw [hnext]; rfl
  next colon hcolon =>
    simp only [hcolon, Except.map, Bytewise.placed, ok_bind]
    split
    next e hfirst => simp only [nextWithin_of_error hfirst]; rfl
    next hfirst => simp only [nextWithin_of_none hfirst]; rfl
    next first after hfirst =>
      simp only [nextWithin_of_some hfirst]
      exact forget_mapped (parseValue limit depth first after) (fun value => (key, value)) _
  next other after hcolon hnext =>
    rw [hnext]
    cases other <;> first | rfl | exact absurd rfl hcolon

theorem forget_parseArray : forget (parseValue limit depth .arrayStart c) =
    checkDepth limit (depth + 1) c.position >>= fun _ =>
      readParts (JsonCursor.nextWithin .array) .arrayEnd
        (fun first after => forget (parseValue limit (depth + 1) first after))
        (fun mid => forget (parseItems limit (depth + 1) mid)) c >>= fun (items, place) =>
          .ok (.array items, place) := by
  rw [parseValue]
  cases checkDepth limit (depth + 1) c.position with
  | error e => rfl
  | ok _ =>
    rw [readParts, ok_bind, ok_bind]
    split
    next e hnext => rw [nextWithin_of_error hnext]; rfl
    next hnext => rw [nextWithin_of_none hnext]; rfl
    next first after hnext =>
      simp only [nextWithin_of_some hnext, ok_bind]
      split
      next => rfl
      next =>
        exact forget_parts (parseValue limit (depth + 1) first after) (parseItems limit (depth + 1))
          Json.array _

theorem forget_parseObject : forget (parseValue limit depth .objectStart c) =
    checkDepth limit (depth + 1) c.position >>= fun _ =>
      readParts (JsonCursor.nextWithin .object) .objectEnd
        (fun first after => forget (parseEntry limit (depth + 1) first after))
        (fun mid => forget (parseEntries limit (depth + 1) mid)) c >>= fun (entries, place) =>
          .ok (.object entries, place) := by
  rw [parseValue]
  cases checkDepth limit (depth + 1) c.position with
  | error e => rfl
  | ok _ =>
    rw [readParts, ok_bind, ok_bind]
    split
    next e hnext => rw [nextWithin_of_error hnext]; rfl
    next hnext => rw [nextWithin_of_none hnext]; rfl
    next first after hnext =>
      simp only [nextWithin_of_some hnext, ok_bind]
      split
      next => rfl
      next =>
        exact forget_parts (parseEntry limit (depth + 1) first after) (parseEntries limit (depth + 1))
          Json.object _

namespace Bytewise

open JsonCursor (IsAt isSpace)

variable {text : String}

section

variable {α : Type} {close : JsonToken} {read : JsonToken → Nat → Scan (α × Nat)}
  {readRest : Nat → Scan (List α × Nat)}
  {readChars : JsonToken → JsonCursor → Except JsonError (α × JsonCursor)}
  {readCharsRest : JsonCursor → Except JsonError (List α × JsonCursor)}

theorem next_of_placed {after : JsonCursor} {t : JsonToken}
    (h : c.next.map (placed c) = .ok (some t, after)) : c.next = .ok (some (t, after)) := by
  cases hnext : c.next with
  | error e => rw [hnext] at h; cases h
  | ok step =>
    cases step with
    | none => rw [hnext] at h; cases h
    | some step => rw [hnext] at h; cases h; rfl

theorem nextWithin_eq_bind (c : JsonCursor) (part : JsonPlace) :
    c.nextWithin part = c.next.map (placed c) >>= fun
      | (none, after) => .error (.unexpectedEnd part after.position)
      | (some token, after) => .ok (token, after) := by
  cases hnext : c.next with
  | error e => exact nextWithin_of_error hnext
  | ok step =>
    cases step with
    | none => exact nextWithin_of_none hnext
    | some step => exact nextWithin_of_some hnext

theorem nextWithin_agrees (h : IsAt text c) (part : JsonPlace) :
    Agrees text (nextWithin part text c.position) (c.nextWithin part) := by
  rw [nextWithin_eq_bind, nextWithin]
  refine (next_agrees h).bind fun token after _ hafter => ?_
  cases token with
  | none => exact .error _
  | some token => exact .ok token hafter rfl

/-- The parts of a container are read alike if each part is, and the rest of them further on. -/
theorem readParts_agrees (h : IsAt text c) (part : JsonPlace)
    (hread : ∀ first after, after.rest.length < c.rest.length → IsAt text after →
      Agrees text (read first after.position) (readChars first after))
    (hlength : ∀ first after value mid, readChars first after = .ok (value, mid) →
      mid.rest.length ≤ after.rest.length)
    (hrest : ∀ mid, mid.rest.length < c.rest.length → IsAt text mid →
      Agrees text (readRest mid.position) (readCharsRest mid)) :
    Agrees text (readParts (nextWithin part text) close read readRest c.position)
      (readParts (JsonCursor.nextWithin part) close readChars readCharsRest c) := by
  refine (nextWithin_agrees h part).bind fun first after hnext hafter => ?_
  have hshort := nextWithin_length hnext
  dsimp only
  split
  next => exact .ok [] hafter rfl
  next =>
    refine (hread first after hshort hafter).bind fun value mid hvalue hmid => ?_
    have hle := hlength first after value mid hvalue
    exact (hrest mid (by omega) hmid).bind fun rest place _ hplace => .ok _ hplace rfl

/-- So are the parts behind another one. -/
theorem readMore_agrees (h : IsAt text c) (part nextPart : JsonPlace)
    (wrong : JsonToken → Nat → JsonError)
    (hread : ∀ first after, after.rest.length < c.rest.length → IsAt text after →
      Agrees text (read first after.position) (readChars first after))
    (hlength : ∀ first after value mid, readChars first after = .ok (value, mid) →
      mid.rest.length ≤ after.rest.length)
    (hrest : ∀ mid, mid.rest.length < c.rest.length → IsAt text mid →
      Agrees text (readRest mid.position) (readCharsRest mid)) :
    Agrees text
      (readMore (nextWithin part text) (nextWithin nextPart text) close
        (fun token stop => throw (wrong token stop)) read readRest c.position)
      (readMore (JsonCursor.nextWithin part) (JsonCursor.nextWithin nextPart) close
        (fun token after => .error (wrong token after.position)) readChars readCharsRest c) := by
  refine (nextWithin_agrees h part).bind fun token after hnext hafter => ?_
  have hshort := nextWithin_length hnext
  dsimp only
  split
  next => exact .ok [] hafter rfl
  next =>
    split
    next =>
      refine (nextWithin_agrees hafter nextPart).bind fun first after hnext hafter => ?_
      have hshort' := nextWithin_length hnext
      refine (hread first after (by omega) hafter).bind fun value mid hvalue hmid => ?_
      have hle := hlength first after value mid hvalue
      exact (hrest mid (by omega) hmid).bind fun rest place _ hplace => .ok _ hplace rfl
    next => exact .error _

end

-- The induction is on the fuel, which each token that is read leaves above what is left of the text.
mutual

theorem parseValue_agrees {limit depth fuel : Nat} {c : JsonCursor} (h : IsAt text c)
    (hfuel : c.rest.length < fuel) (token : JsonToken) :
    Agrees text (parseValue text limit fuel depth token c.position)
      (forget (Json.parseValue limit depth token c)) := by
  cases fuel with
  | zero => exact absurd hfuel (Nat.not_lt_zero _)
  | succ fuel =>
    cases token with
    | null | bool value | number value | string value =>
      rw [parseValue, Json.parseValue]
      exact .ok _ h rfl
    | arrayStart =>
      rw [parseValue, forget_parseArray]
      unfold openContainer checkDepth
      split
      next =>
        refine Agrees.bind (readParts_agrees h .array (fun first after hlt hafter => ?_)
          (fun first after value mid => forget_length) (fun mid hlt hmid => ?_))
          (fun items place _ hplace => .ok _ hplace rfl)
        · exact parseValue_agrees hafter (by omega) first
        · exact parseItems_agrees hmid (by omega)
      next => exact .error _
    | objectStart =>
      rw [parseValue, forget_parseObject]
      unfold openContainer checkDepth
      split
      next =>
        refine Agrees.bind (readParts_agrees h .object (fun first after hlt hafter => ?_)
          (fun first after value mid => forget_length) (fun mid hlt hmid => ?_))
          (fun entries place _ hplace => .ok _ hplace rfl)
        · exact parseEntry_agrees hafter (by omega) first
        · exact parseEntries_agrees hmid (by omega)
      next => exact .error _
    | objectEnd | arrayEnd | colon | comma =>
      rw [parseValue.eq_def, Json.parseValue.eq_def]
      exact .error _

theorem parseItems_agrees {limit depth fuel : Nat} {c : JsonCursor} (h : IsAt text c)
    (hfuel : c.rest.length < fuel) :
    Agrees text (parseItems text limit fuel depth c.position)
      (forget (Json.parseItems limit depth c)) := by
  cases fuel with
  | zero => exact absurd hfuel (Nat.not_lt_zero _)
  | succ fuel =>
    rw [parseItems, forget_parseItems]
    exact readMore_agrees h .array .value .expectedInArray
      (fun first after hlt hafter => parseValue_agrees hafter (by omega) first)
      (fun first after value mid => forget_length)
      (fun mid hlt hmid => parseItems_agrees hmid (by omega))

theorem parseEntry_agrees {limit depth fuel : Nat} {c : JsonCursor} (h : IsAt text c)
    (hfuel : c.rest.length < fuel) (token : JsonToken) :
    Agrees text (parseEntry text limit fuel depth token c.position)
      (forget (Json.parseEntry limit depth token c)) := by
  cases fuel with
  | zero => exact absurd hfuel (Nat.not_lt_zero _)
  | succ fuel =>
    cases token with
    | string key =>
      rw [parseEntry, forget_parseEntry]
      refine (next_agrees h).bind fun token colon hnext hcolon => ?_
      cases token with
      | none => exact .error _
      | some token =>
        have hshort := JsonCursor.next_length (next_of_placed hnext)
        cases token with
        | colon =>
          refine (nextWithin_agrees hcolon .value).bind fun first after hnext hafter => ?_
          have hshort' := nextWithin_length hnext
          exact (parseValue_agrees hafter (by omega) first).bind
            fun value place _ hplace => .ok _ hplace rfl
        | _ => exact .error _
    | _ =>
      rw [parseEntry.eq_def, Json.parseEntry.eq_def]
      exact .error _

theorem parseEntries_agrees {limit depth fuel : Nat} {c : JsonCursor} (h : IsAt text c)
    (hfuel : c.rest.length < fuel) :
    Agrees text (parseEntries text limit fuel depth c.position)
      (forget (Json.parseEntries limit depth c)) := by
  cases fuel with
  | zero => exact absurd hfuel (Nat.not_lt_zero _)
  | succ fuel =>
    rw [parseEntries, forget_parseEntries]
    exact readMore_agrees h .object .object .expectedInObject
      (fun first after hlt hafter => parseEntry_agrees hafter (by omega) first)
      (fun first after value mid => forget_length)
      (fun mid hlt hmid => parseEntries_agrees hmid (by omega))

end

theorem parseWithin_eq_bind (limit : Nat) (text : String) : Json.parseWithin limit text =
    (JsonCursor.ofText text).nextWithin .value >>= fun (first, after) =>
      forget (Json.parseValue limit 0 first after) >>= fun (root, place) =>
        if place.skipSpace.rest.isEmpty then .ok root
        else .error (.trailing place.skipSpace.position) := by
  rw [Json.parseWithin]
  split
  next e hnext => rw [nextWithin_of_error hnext]; rfl
  next hnext => rw [nextWithin_of_none hnext]; rfl
  next first after hnext =>
    rw [nextWithin_of_some hnext, ok_bind]
    dsimp only
    cases Json.parseValue limit 0 first after <;> rfl

/-- The parser of bytes ends on every text, and as the parser of characters does. -/
theorem parseWithin_run (limit : Nat) {fuel : Nat} {text : String} (hfuel : text.utf8ByteSize < fuel) :
    (parseWithin limit fuel text).run = some (Json.parseWithin limit text) := by
  have hstart := JsonCursor.IsAt.ofText text
  have hlength := hstart.length_le
  rw [parseWithin_eq_bind, parseWithin]
  refine (nextWithin_agrees hstart .value).run_bind fun first after hnext hafter => ?_
  have hshort := nextWithin_length hnext
  refine (parseValue_agrees hafter (by omega) first).run_bind fun root place _ hplace => ?_
  have hstop : skip isSpace text place.position = place.skipSpace.position :=
    hplace.skip isAscii_isSpace
  have hlast := hplace.skipSpace.position_add
  simp only [hstop]
  cases hrest : place.skipSpace.rest with
  | nil =>
    rw [hrest, byteCount, Nat.add_zero] at hlast
    rw [if_pos hlast]
    rfl
  | cons c cs =>
    have hpos := c.utf8Size_pos
    rw [hrest, byteCount] at hlast
    rw [if_neg (by omega)]
    rfl

/-- From a place between two characters, reading a token cuts no character and takes no part of the
text that is not there, and it comes to such a place again, further on. So no loop of the parser takes
more turns than there are bytes left. -/
theorem next_advances_between_characters (text : String) :
    (∀ start stop, (∃ part, slice? text start stop = some part) ↔
      start ≤ stop ∧ String.Pos.Raw.IsValid text ⟨start⟩ ∧ String.Pos.Raw.IsValid text ⟨stop⟩) ∧
    (∀ position, String.Pos.Raw.IsValid text ⟨position⟩ →
      (∃ read, (next text position).run = some read ∧
        (∀ stop, read = .ok (none, stop) → ∀ b ∈ bytesFrom text position, isSpace (letter b)) ∧
        (∀ token stop, read = .ok (some token, stop) →
          position < stop ∧ stop ≤ text.utf8ByteSize ∧ String.Pos.Raw.IsValid text ⟨stop⟩) ∧
        ∃ c, IsAt text c ∧ c.position = position ∧
          read = (c.next.map (placed c)).map fun (token, after) => (token, after.position)) ∧
      ∀ limit depth,
        (∀ token, ∃ value, ∀ fuel, text.utf8ByteSize - position < fuel →
          (parseValue text limit fuel depth token position).run = some value) ∧
        (∀ token, ∃ entry, ∀ fuel, text.utf8ByteSize - position < fuel →
          (parseEntry text limit fuel depth token position).run = some entry) ∧
        (∃ items, ∀ fuel, text.utf8ByteSize - position < fuel →
          (parseItems text limit fuel depth position).run = some items) ∧
        ∃ entries, ∀ fuel, text.utf8ByteSize - position < fuel →
          (parseEntries text limit fuel depth position).run = some entries) ∧
    ∀ limit fuel, text.utf8ByteSize < fuel →
      (parseWithin limit fuel text).run = some (Json.parseWithin limit text) := by
  refine ⟨fun start stop => exists_slice?_iff, fun position hposition => ?_,
    fun limit fuel => parseWithin_run limit⟩
  obtain ⟨rest, hplace⟩ := JsonCursor.isValid_iff_exists_isAt.mp hposition
  refine ⟨⟨_, (next_agrees hplace).1, fun stop hread => ?_, fun token stop hread => ?_,
    _, hplace, rfl, rfl⟩, fun limit depth => ?_⟩
  · cases hnext : JsonCursor.next ⟨position, rest⟩ with
    | error e => rw [hnext] at hread; cases hread
    | ok step =>
      cases step with
      | none => exact hplace.isSpace_of_blank (blank_of_next hnext)
      | some step => rw [hnext] at hread; cases hread
  · cases hnext : JsonCursor.next ⟨position, rest⟩ with
    | error e => rw [hnext] at hread; cases hread
    | ok step =>
      cases step with
      | none => rw [hnext] at hread; cases hread
      | some step =>
        obtain ⟨t, after⟩ := step
        rw [hnext] at hread
        cases hread
        obtain ⟨hafter, hlt⟩ := lt_of_next hplace hnext
        exact ⟨hlt, hafter.position_add ▸ Nat.le_add_right _ _,
          JsonCursor.isValid_iff_exists_isAt.mpr ⟨_, hafter⟩⟩
  · have hlength {fuel : Nat} (hfuel : text.utf8ByteSize - position < fuel) : rest.length < fuel :=
      Nat.lt_of_le_of_lt hplace.length_le hfuel
    exact ⟨fun token => ⟨_, fun _ hfuel => (parseValue_agrees hplace (hlength hfuel) token).1⟩,
      fun token => ⟨_, fun _ hfuel => (parseEntry_agrees hplace (hlength hfuel) token).1⟩,
      ⟨_, fun _ hfuel => (parseItems_agrees hplace (hlength hfuel)).1⟩,
      ⟨_, fun _ hfuel => (parseEntries_agrees hplace (hlength hfuel)).1⟩⟩

/-- Of the places up to the second bracket, one is inside a character. -/
theorem next_advances_between_characters_accented :
    String.Pos.Raw.IsValid "[\"é\"]" ⟨1⟩ ∧
      (next "[\"é\"]" 1).run = some (.ok (some (.string "é"), 5)) ∧
      String.Pos.Raw.IsValid "[\"é\"]" ⟨5⟩ ∧ ¬String.Pos.Raw.IsValid "[\"é\"]" ⟨3⟩ ∧
      String.utf8ByteSize "[\"é\"]" < 7 ∧
      (parseWithin 1 7 "[\"é\"]").run = some (Json.parseWithin 1 "[\"é\"]") := by
  have hone : String.Pos.Raw.IsValid "[\"é\"]" ⟨1⟩ := by decide
  have hnext : (next "[\"é\"]" 1).run = some (.ok (some (.string "é"), 5)) := rfl
  have hfuel : String.utf8ByteSize "[\"é\"]" < 7 := by decide
  obtain ⟨-, hadvances, hparse⟩ := next_advances_between_characters "[\"é\"]"
  obtain ⟨⟨read, hread, -, htoken, -⟩, -⟩ := hadvances 1 hone
  obtain rfl := Option.some.inj (hread.symm.trans hnext)
  obtain ⟨-, -, hfive⟩ := htoken _ _ rfl
  exact ⟨hone, hnext, hfive, by decide, hfuel, hparse 1 7 hfuel⟩

end Bytewise

end Json

end RowFormat
