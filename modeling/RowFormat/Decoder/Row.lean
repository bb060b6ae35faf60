import RowFormat.Decoder.Dict
import RowFormat.Decoder.List

namespace RowFormat

namespace Decoder

/-- Reads text through a descriptor. The length of the payload counts the terminator. -/
def readStr (span : Span) : Decoding Value := do
  let descriptor ← .access span.descriptor
  let target ← .access (descriptor.target span)
  let bytes ← .access (target.bytes (descriptor.length.toNat - 1))
  let text ← decodeText bytes target.position
  pure (.str text)

/-- Reads a blob through a descriptor. -/
def readBlobAt (d : Decoder) (span : Span) : Decoding Value := do
  let descriptor ← .access span.descriptor
  let payload ← .access (descriptor.payload span)
  .ofExcept ((d.readBlob payload).mapError (Fault.blob span.position))

/-- Reads a nullable value. A field of a row has its bit there; any other value brings a bitmap
along. -/
def readOption (read : Reader) (span : Span) (bit : Option NullBit) (depth : Nat) :
    Decoding Value := do
  let (bit, payload) ← match bit with
    | some bit => pure (bit, span)
    | none => do
      let (bitmap, payload) ← .access (NullBitmap.embedded span)
      pure (⟨bitmap, 0⟩, payload)
  let null ← .access bit.isNull
  if null then pure .null else read payload none depth

theorem readOption_some (read : Reader) (span : Span) (bit : NullBit) (depth : Nat) :
    readOption read span (some bit) depth = (Decoding.access bit.isNull).bind fun null =>
      if null then .ok .null else read span none depth := rfl

theorem readOption_none (read : Reader) (span : Span) (depth : Nat) :
    readOption read span none depth = (Decoding.access (NullBitmap.embedded span)).bind fun r =>
      (Decoding.access (r.1.isNull 0)).bind fun null =>
        if null then .ok .null else read r.2 none depth := rfl

mutual

/-- What reads the values of a schema. -/
def reader (d : Decoder) : Schema → Reader
  | .null => fun _ _ _ => pure .null
  | .emptyTuple => fun _ _ _ => pure .emptyTuple
  | .emptyList => fun _ _ _ => pure .emptyList
  | .emptyDict => fun _ _ _ => pure .emptyDict
  | .bool => fun span _ _ => do
    let byte ← .access span.byte
    pure (.bool (byte != 0))
  | .int => fun span _ _ => do
    let value ← .access span.int
    pure (.int value)
  | .float => fun span _ _ => do
    let value ← .access span.float
    pure (.float value)
  | .str => fun span _ _ => readStr span
  | .blob => fun span _ _ => d.readBlobAt span
  | .tuple [] => fun _ _ _ => pure .emptyTuple
  | .tuple (field :: fields) => fun span _ depth =>
    d.readTuple (.tuple (field :: fields)) (leafReaders d (field :: fields) [] 0) span depth
  | .list element => fun span _ depth => d.readList element (reader d element) span depth
  | .dict => fun span _ _ => d.readDict span
  | .option inner => fun span bit depth => readOption (reader d inner) span bit depth

/-- What reads the leaves of some fields, the first of which has the given index under `path`. -/
def leafReaders (d : Decoder) : List Schema → Path → Nat → List LeafReader
  | [], _, _ => []
  | .tuple (field :: fields) :: rest, path, i =>
    leafReaders d (field :: fields) (path ++ [i]) 0 ++ leafReaders d rest path (i + 1)
  | schema :: rest, path, i =>
    ⟨⟨path ++ [i], schema⟩, reader d schema⟩ :: leafReaders d rest path (i + 1)

end

/-- Reads one value at a place. -/
def read (d : Decoder) (schema : Schema) (span : Span) (bit : Option NullBit) : Decoding Value :=
  d.reader schema span bit 0

/-- Reads the row at the start of a buffer. -/
def readRow (d : Decoder) (data : ByteArray) (schema : Schema) : Decoding Value :=
  d.read schema (Span.ofBytes data) none

end Decoder

end RowFormat
