import RowFormat.Decoding
import RowFormat.Json.Document
import RowFormat.Layout
import RowFormat.Span
import RowFormat.Value.Basic

namespace RowFormat

/-- The limits of a decoder, and the readers of the two kinds of payload that no schema describes. -/
structure Decoder where
  maxDepth : Nat
  maxZeroWidthLength : Nat
  /-- Reads the payload of a dict; there is no reason given when it cannot. -/
  parseDict : ByteArray → Option Json
  /-- Reads the payload of a blob. -/
  readBlob : ByteArray → Except Report Value

namespace Decoder

/-- Reads a dict payload as JSON text in which at most `limit` containers may be nested. -/
def jsonDict (limit : Nat) (payload : ByteArray) : Option Json :=
  match String.fromUTF8? payload with
  | none => none
  | some text => (Json.parseWithin limit text).toOption

/-- Keeps a blob as it is. -/
def keepBlob (payload : ByteArray) : Except Report Value := .ok (.blob payload)

/-- The default limits, dicts as JSON, and blobs kept as they are. -/
def standard : Decoder where
  maxDepth := defaultMaxDepth
  maxZeroWidthLength := defaultMaxZeroWidthLength
  parseDict := jsonDict defaultMaxDepth
  readBlob := keepBlob

/-- The limits of a decoder. Its readers have no text. -/
def describe (d : Decoder) : String :=
  s!"RowDecoder \x7b max_depth: {d.maxDepth}, max_zero_width_list_len: {d.maxZeroWidthLength}, .. \x7d"

/-- A container can be opened inside fewer than `maxDepth` others. -/
def checkDepth (d : Decoder) (depth : Nat) (span : Span) : Except Fault Unit :=
  if depth < d.maxDepth then .ok () else .error (.tooDeep depth d.maxDepth span.position)

/-- Reads an element count, which is stored as a signed word. -/
def readCount (span : Span) : Decoding Nat := do
  let count ← .access span.int
  if count.toInt < 0 then .fail (.negativeCount count.toInt span.position)
  else pure count.toInt.toNat

/-- The text that some bytes at a position encode. -/
def decodeText (bytes : ByteArray) (position : Nat) : Decoding String :=
  .ofExcept ((readText bytes).mapError (Fault.invalidText position))

end Decoder

end RowFormat
