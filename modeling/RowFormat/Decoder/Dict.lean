import RowFormat.Decoder.Basic
import RowFormat.Descriptor
import RowFormat.Text.Blank
import RowFormat.Value.Equality

namespace RowFormat

/-- Why half of an entry became null. -/
structure Complaint where
  kind : DiagnosticKind
  detail : String
deriving DecidableEq

namespace Dict

/-- A tag is shown as the character with the number of its byte. -/
def tagText (tag : UInt8) : String := String.singleton (Char.ofNat tag.toNat)

/-- The two tags of a key and the literal behind them. The literal has to begin with a character,
and not in the middle of one. -/
def splitKey : List Char → Option (UInt8 × UInt8 × List Char)
  | [] => none
  | first :: rest =>
    match String.utf8EncodeChar first, rest with
    | [keyTag, valueTag], literal => some (keyTag, valueTag, literal)
    | [keyTag], second :: literal =>
      match String.utf8EncodeChar second with
      | [valueTag] => some (keyTag, valueTag, literal)
      | _ => none
    | _, _ => none

/-- Reads a literal key by its tag. `raw` is the whole key. -/
def readKey (tag : UInt8) (literal : List Char) (raw : String) : Except Complaint Value :=
  let shown := String.ofList literal
  if tag = 's'.toUInt8 then .ok (.str shown)
  else if tag = 'b'.toUInt8 then
    if shown = "True" then .ok (.bool true)
    else if shown = "False" then .ok (.bool false)
    else .error ⟨.invalidBoolKey, s!"invalid boolean key '{shown}'"⟩
  else if tag = 'i'.toUInt8 then
    match Numeral.readInt64 (trimBlank literal) with
    | .ok value => .ok (.int value)
    | .error e => .error ⟨.invalidIntKey, s!"invalid integer key '{shown}': {e.message}"⟩
  else if tag = 'f'.toUInt8 then
    match Binary64.read (trimBlank literal) with
    | .ok value => .ok (.float value)
    | .error e => .error ⟨.invalidFloatKey, s!"invalid float key '{shown}': {e.message}"⟩
  else .error ⟨.unknownKeyTag, s!"unknown key type '{tagText tag}' in '{raw}'"⟩

/-- What a node is read as under a tag, if its kind fits; a tag that is none has no answer. -/
def nodeValue? (tag : UInt8) (node : Json) : Option (Option Value) :=
  if tag = 's'.toUInt8 then some (node.text?.map Value.str)
  else if tag = 'b'.toUInt8 then some (some (.bool node.isTrue))
  else if tag = 'i'.toUInt8 then some (node.number?.map fun n => .int n.truncate)
  else if tag = 'f'.toUInt8 then some (node.number?.map Value.float)
  else none

/-- Reads the value of an entry by its tag. -/
def readValue (tag : UInt8) (node : Json) (raw : String) : Except Complaint Value :=
  match nodeValue? tag node with
  | some (some value) => .ok value
  | some none =>
    .error ⟨.valueTypeMismatch,
      s!"value of '{raw}' is a {node.kind} node, expected tag '{tagText tag}'"⟩
  | none => .error ⟨.unknownValueTag, s!"unknown value type '{tagText tag}' in '{raw}'"⟩

/-- The value that was read, or null and a diagnostic. -/
def recover (position : Nat) : Except Complaint Value → Value × Diagnostics
  | .ok value => (value, [])
  | .error c => (.null, [⟨c.kind, position, c.detail⟩])

/-- Reads both halves of an entry, the key first. -/
def readEntry (position : Nat) (raw : String) (node : Json) : (Value × Value) × Diagnostics :=
  match splitKey raw.toList with
  | none => ((.null, .null), [⟨.malformedKey, position, s!"dict key '{raw}' lacks type tags"⟩])
  | some (keyTag, valueTag, literal) =>
    let (key, keyNotes) := recover position (readKey keyTag literal raw)
    let (value, valueNotes) := recover position (readValue valueTag node raw)
    ((key, value), keyNotes ++ valueNotes)

/-- Entries in the order of their keys' first occurrence, and the place of every key that has
one. -/
structure Table where
  entries : Array (Value × Value)
  places : Std.HashMap Key Nat

namespace Table

def empty : Table := ⟨#[], ∅⟩

/-- Puts a value under a key. Keys that cannot be indexed are never found again. -/
def put (t : Table) (key value : Value) : Table :=
  match key.key? with
  | none => { t with entries := t.entries.push (key, value) }
  | some k =>
    match t.places[k]? with
    | some i => { t with entries := t.entries.modify i fun (first, _) => (first, value) }
    | none => ⟨t.entries.push (key, value), t.places.insert k t.entries.size⟩

end Table

/-- Reads the entries of a dict at a position. A repeated key keeps its first place and takes the last
value. -/
def readEntries (position : Nat) (entries : List (String × Json)) :
    List (Value × Value) × Diagnostics :=
  let halves := entries.map fun (raw, node) => readEntry position raw node
  let table := halves.foldl (fun t ((key, value), _) => t.put key value) Table.empty
  (table.entries.toList, halves.flatMap Prod.snd)

/-- A payload may be filled up with NUL bytes at its end. -/
def stripPadding (payload : ByteArray) : ByteArray :=
  ⟨(payload.data.toList.reverse.dropWhile (· == 0)).reverse.toArray⟩

end Dict

/-- Reads a dict through the descriptor at a place. -/
def Decoder.readDict (d : Decoder) (span : Span) : Decoding Value := do
  let descriptor ← .access span.descriptor
  let payload ← .access (descriptor.payload span)
  match d.parseDict (Dict.stripPadding payload) with
  | none => .fail (.dictUnparsed descriptor.length.toNat span.position)
  | some root =>
    match root.entries? with
    | none => .fail (.dictKind span.position root.kind)
    | some members =>
      let (entries, notes) := Dict.readEntries span.position members
      ⟨.ok (.dict entries), notes⟩

end RowFormat
