import RowFormat.Json.Document

namespace RowFormat

namespace Json

section

variable {m : Type → Type} [Monad m] {P α : Type}

/-- The parts of a container behind its opening: its end, or a first part and the rest. -/
def readParts (next : P → m (JsonToken × P)) (close : JsonToken)
    (read : JsonToken → P → m (α × P)) (readRest : P → m (List α × P)) (place : P) :
    m (List α × P) := do
  let (first, place) ← next place
  if first = close then pure ([], place)
  else do
    let (part, place) ← read first place
    let (rest, place) ← readRest place
    pure (part :: rest, place)

/-- The parts behind another one: the end of the container, or a comma, a part and the rest. -/
def readMore (next nextPart : P → m (JsonToken × P)) (close : JsonToken)
    (wrong : JsonToken → P → m (List α × P)) (read : JsonToken → P → m (α × P))
    (readRest : P → m (List α × P)) (place : P) : m (List α × P) := do
  let (token, place) ← next place
  if token = close then pure ([], place)
  else if token = .comma then do
    let (first, place) ← nextPart place
    let (part, place) ← read first place
    let (rest, place) ← readRest place
    pure (part :: rest, place)
  else wrong token place

end

namespace Bytewise

/-- A result or an error; nothing if a part of the text is not there or a loop does not end. -/
abbrev Scan := ExceptT JsonError Option

def noAnswer {α : Type} : Scan α := ExceptT.mk none

/-- The bytes from a place on. -/
def bytesFrom (text : String) (position : Nat) : List UInt8 :=
  text.toByteArray.data.toList.drop position

/-- The character with the number of a byte. -/
def letter (b : UInt8) : Char := Char.ofNat b.toNat

/-- The part of the text between two places, the second of which is not before the first. Neither may
lie inside a character. -/
def slice? (text : String) (start stop : Nat) : Option String := do
  let first ← text.pos? ⟨start⟩
  let last ← text.pos? ⟨stop⟩
  let part ← text.slice? first last
  pure part.copy

def slice (text : String) (start stop : Nat) : Scan String := .lift (slice? text start stop)

/-- The first place from `position` on that holds a byte of another kind. -/
def skip (isKind : Char → Bool) (text : String) (position : Nat) : Nat :=
  position + ((bytesFrom text position).takeWhile fun b => isKind (letter b)).length

/-- The place of the closing quote among bytes the first of which is at `i`, and whether a backslash
comes before it. A backslash takes the next byte along, whatever character that is a part of. -/
def closing? (i : Nat) (escaped : Bool) : List UInt8 → Option (Nat × Bool)
  | [] => none
  | b :: bs =>
    if letter b = '"' then some (i, escaped)
    else if letter b = '\\' then
      match bs with
      | [] => none
      | _ :: rest => closing? (i + 2) true rest
    else closing? (i + 1) escaped bs

/-- Reads a string whose opening quote is at `position`. -/
def readString (text : String) (position : Nat) : Scan (JsonToken × Nat) :=
  match closing? (position + 1) false (bytesFrom text (position + 1)) with
  | none => throw (.unterminatedString position)
  | some (stop, escaped) => do
    let raw ← slice text (position + 1) stop
    if escaped then
      match unescape raw with
      | .ok value => pure (.string value, stop + 1)
      | .error e => throw (.escape e)
    else pure (.string raw, stop + 1)

/-- Reads a word that stands for one token. -/
def readWord (text : String) (position : Nat) (word : String) (token : JsonToken) :
    Scan (JsonToken × Nat) := do
  let rest ← slice text position text.utf8ByteSize
  if word.toList.isPrefixOf rest.toList then pure (token, position + word.utf8ByteSize)
  else throw (.expectedWord word position)

/-- Reads a number that begins at `position`. -/
def readNumber (text : String) (position : Nat) : Scan (JsonToken × Nat) := do
  let stop := skip JsonCursor.isNumberChar text (position + 1)
  let number ← slice text position stop
  match Binary64.read number.toList with
  | .ok value => pure (.number value, stop)
  | .error e => throw (.invalidNumber number position e)

/-- Reads the token that begins with the byte `first`. -/
def readToken (text : String) (position : Nat) (first : UInt8) : Scan (JsonToken × Nat) :=
  match JsonCursor.punctuation? (letter first) with
  | some token => pure (token, position + 1)
  | none =>
    if letter first = '"' then readString text position
    else if letter first = 't' then readWord text position "true" (.bool true)
    else if letter first = 'f' then readWord text position "false" (.bool false)
    else if letter first = 'n' then readWord text position "null" .null
    else if letter first = '-' ∨ (letter first).isDigit then readNumber text position
    else throw (.unexpectedCharacter first position)

/-- The next token, or nothing at the end of the text, and the place behind it. -/
def next (text : String) (position : Nat) : Scan (Option JsonToken × Nat) :=
  let start := skip JsonCursor.isSpace text position
  match bytesFrom text start with
  | [] => pure (none, start)
  | first :: _ => do
    let (token, stop) ← readToken text start first
    pure (some token, stop)

/-- The next token, in the middle of some part of a document. -/
def nextWithin (part : JsonPlace) (text : String) (position : Nat) : Scan (JsonToken × Nat) := do
  match ← next text position with
  | (none, stop) => throw (.unexpectedEnd part stop)
  | (some token, stop) => pure (token, stop)

def openContainer (limit depth position : Nat) : Scan Unit :=
  if depth ≤ limit then pure () else throw (.tooDeep depth limit position)

-- The fuel counts the values and members inside one another and one behind the other, down to the
-- one that is read.
mutual

/-- The value that begins with a token just read, inside `depth` containers. -/
def parseValue (text : String) (limit fuel depth : Nat) (token : JsonToken) (position : Nat) :
    Scan (Json × Nat) :=
  match fuel with
  | 0 => noAnswer
  | fuel + 1 =>
    match token with
    | .null => pure (.null, position)
    | .bool value => pure (.bool value, position)
    | .number value => pure (.number value, position)
    | .string value => pure (.string value, position)
    | .arrayStart => do
      openContainer limit (depth + 1) position
      let (items, stop) ← readParts (nextWithin .array text) .arrayEnd
        (parseValue text limit fuel (depth + 1)) (parseItems text limit fuel (depth + 1)) position
      pure (.array items, stop)
    | .objectStart => do
      openContainer limit (depth + 1) position
      let (entries, stop) ← readParts (nextWithin .object text) .objectEnd
        (parseEntry text limit fuel (depth + 1)) (parseEntries text limit fuel (depth + 1)) position
      pure (.object entries, stop)
    | other => throw (.unexpectedToken other position)
termination_by structural fuel

/-- The items of an array after the first, up to the closing bracket. -/
def parseItems (text : String) (limit fuel depth position : Nat) : Scan (List Json × Nat) :=
  match fuel with
  | 0 => noAnswer
  | fuel + 1 =>
    readMore (nextWithin .array text) (nextWithin .value text) .arrayEnd
      (fun token stop => throw (.expectedInArray token stop))
      (parseValue text limit fuel depth) (parseItems text limit fuel depth) position
termination_by structural fuel

/-- The member that begins with a token just read: a string, a colon and a value. -/
def parseEntry (text : String) (limit fuel depth : Nat) (token : JsonToken) (position : Nat) :
    Scan ((String × Json) × Nat) :=
  match fuel with
  | 0 => noAnswer
  | fuel + 1 =>
    match token with
    | .string key => do
      match ← next text position with
      | (some .colon, stop) => do
        let (first, stop) ← nextWithin .value text stop
        let (value, stop) ← parseValue text limit fuel depth first stop
        pure ((key, value), stop)
      | (_, stop) => throw (.expectedColon stop)
    | other => throw (.expectedKey other position)
termination_by structural fuel

/-- The members of an object after the first, up to the closing brace. -/
def parseEntries (text : String) (limit fuel depth position : Nat) :
    Scan (List (String × Json) × Nat) :=
  match fuel with
  | 0 => noAnswer
  | fuel + 1 =>
    readMore (nextWithin .object text) (nextWithin .object text) .objectEnd
      (fun token stop => throw (.expectedInObject token stop))
      (parseEntry text limit fuel depth) (parseEntries text limit fuel depth) position
termination_by structural fuel

end

/-- The document that a text holds, with at most `limit` containers around each value. -/
def parseWithin (limit fuel : Nat) (text : String) : Scan Json := do
  let (first, stop) ← nextWithin .value text 0
  let (root, stop) ← parseValue text limit fuel 0 first stop
  let last := skip JsonCursor.isSpace text stop
  if last = text.utf8ByteSize then pure root else throw (.trailing last)

end Bytewise

end Json

end RowFormat
