import RowFormat.Json.Basic
import RowFormat.Json.Cursor
import RowFormat.Layout

namespace RowFormat

namespace Json

/-- What was read from the place `c` on, and the place after it, which is no further from the end. -/
structure Parsed (α : Type) (c : JsonCursor) where
  value : α
  place : JsonCursor
  le : place.rest.length ≤ c.rest.length

/-- A container may be opened if it has at most `limit` containers around it, itself included. -/
def checkDepth (limit depth position : Nat) : Except JsonError Unit :=
  if depth ≤ limit then .ok () else .error (.tooDeep depth limit position)

-- Every step takes a token at least, so the text that is left bounds the recursion.
mutual

/-- The value that begins with a token just read, inside `depth` containers. -/
def parseValue (limit depth : Nat) (token : JsonToken) (c : JsonCursor) :
    Except JsonError (Parsed Json c) :=
  match token with
  | .null => .ok ⟨.null, c, Nat.le_refl _⟩
  | .bool value => .ok ⟨.bool value, c, Nat.le_refl _⟩
  | .number value => .ok ⟨.number value, c, Nat.le_refl _⟩
  | .string value => .ok ⟨.string value, c, Nat.le_refl _⟩
  | .arrayStart => do
    checkDepth limit (depth + 1) c.position
    match h : c.next with
    | .error e => .error e
    | .ok none => .error (.unexpectedEnd .array c.skipSpace.position)
    | .ok (some (first, after)) =>
      if first = .arrayEnd then
        .ok ⟨.array [], after, Nat.le_of_lt (JsonCursor.next_length h)⟩
      else do
        have := JsonCursor.next_length h
        let item ← parseValue limit (depth + 1) first after
        have := item.le
        let items ← parseItems limit (depth + 1) item.place
        .ok ⟨.array (item.value :: items.value), items.place, by have := items.le; omega⟩
  | .objectStart => do
    checkDepth limit (depth + 1) c.position
    match h : c.next with
    | .error e => .error e
    | .ok none => .error (.unexpectedEnd .object c.skipSpace.position)
    | .ok (some (first, after)) =>
      if first = .objectEnd then
        .ok ⟨.object [], after, Nat.le_of_lt (JsonCursor.next_length h)⟩
      else do
        have := JsonCursor.next_length h
        let entry ← parseEntry limit (depth + 1) first after
        have := entry.le
        let entries ← parseEntries limit (depth + 1) entry.place
        .ok ⟨.object (entry.value :: entries.value), entries.place, by have := entries.le; omega⟩
  | other => .error (.unexpectedToken other c.position)
termination_by c.rest.length

/-- The items of an array after the first, up to the closing bracket. -/
def parseItems (limit depth : Nat) (c : JsonCursor) :
    Except JsonError (Parsed (List Json) c) :=
  match h : c.next with
  | .error e => .error e
  | .ok none => .error (.unexpectedEnd .array c.skipSpace.position)
  | .ok (some (.arrayEnd, after)) => .ok ⟨[], after, Nat.le_of_lt (JsonCursor.next_length h)⟩
  | .ok (some (.comma, comma)) =>
    match h' : comma.next with
    | .error e => .error e
    | .ok none => .error (.unexpectedEnd .value comma.skipSpace.position)
    | .ok (some (first, after)) => do
      have := JsonCursor.next_length h
      have := JsonCursor.next_length h'
      let item ← parseValue limit depth first after
      have := item.le
      let items ← parseItems limit depth item.place
      .ok ⟨item.value :: items.value, items.place, by have := items.le; omega⟩
  | .ok (some (other, after)) => .error (.expectedInArray other after.position)
termination_by c.rest.length

/-- The member that begins with a token just read: a string, a colon and a value. -/
def parseEntry (limit depth : Nat) (token : JsonToken) (c : JsonCursor) :
    Except JsonError (Parsed (String × Json) c) :=
  match token with
  | .string key =>
    match h : c.next with
    | .error e => .error e
    | .ok none => .error (.expectedColon c.skipSpace.position)
    | .ok (some (.colon, colon)) =>
      match h' : colon.next with
      | .error e => .error e
      | .ok none => .error (.unexpectedEnd .value colon.skipSpace.position)
      | .ok (some (first, after)) => do
        have := JsonCursor.next_length h
        have := JsonCursor.next_length h'
        let value ← parseValue limit depth first after
        .ok ⟨(key, value.value), value.place, by have := value.le; omega⟩
    | .ok (some (_, after)) => .error (.expectedColon after.position)
  | other => .error (.expectedKey other c.position)
termination_by c.rest.length

/-- The members of an object after the first, up to the closing brace. -/
def parseEntries (limit depth : Nat) (c : JsonCursor) :
    Except JsonError (Parsed (List (String × Json)) c) :=
  match h : c.next with
  | .error e => .error e
  | .ok none => .error (.unexpectedEnd .object c.skipSpace.position)
  | .ok (some (.objectEnd, after)) => .ok ⟨[], after, Nat.le_of_lt (JsonCursor.next_length h)⟩
  | .ok (some (.comma, comma)) =>
    match h' : comma.next with
    | .error e => .error e
    | .ok none => .error (.unexpectedEnd .object comma.skipSpace.position)
    | .ok (some (first, after)) => do
      have := JsonCursor.next_length h
      have := JsonCursor.next_length h'
      let entry ← parseEntry limit depth first after
      have := entry.le
      let entries ← parseEntries limit depth entry.place
      .ok ⟨entry.value :: entries.value, entries.place, by have := entries.le; omega⟩
  | .ok (some (other, after)) => .error (.expectedInObject other after.position)
termination_by c.rest.length

end

/-- The document that a text holds, with at most `limit` containers around each value and nothing
but space around the whole. -/
def parseWithin (limit : Nat) (text : String) : Except JsonError Json :=
  let start := JsonCursor.ofText text
  match start.next with
  | .error e => .error e
  | .ok none => .error (.unexpectedEnd .value start.skipSpace.position)
  | .ok (some (first, after)) => do
    let root ← parseValue limit 0 first after
    let last := root.place.skipSpace
    if last.rest.isEmpty then .ok root.value else .error (.trailing last.position)

/-- The document that a text holds, with the default limit on its nesting. -/
def parse (text : String) : Except JsonError Json := parseWithin defaultMaxDepth text

end Json

end RowFormat
