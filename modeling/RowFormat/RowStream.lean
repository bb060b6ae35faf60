import RowFormat.Decoder.Row
import RowFormat.Schema.Size

namespace RowFormat

/-- Reads the row at the start of the data, no further than the capacity, and where the next one
begins. -/
def Decoder.readSized (d : Decoder) (data : ByteArray) (capacity : Nat) (schema : Schema) :
    Decoding (Value × Nat) :=
  let window := Schema.window data capacity
  match schema.rowSize? window capacity with
  | none => .fail (.malformedRow schema capacity)
  | some size => do
    let value ← d.readRow window schema
    pure (value, size)

/-- A buffer of rows, read up to an offset. Nothing separates them: the next row begins where the size of
the last one says. A row that cannot be read ends the stream. -/
structure RowStream where
  decoder : Decoder
  data : ByteArray
  schema : Schema
  offset : Nat
  done : Bool
  diagnostics : Diagnostics

namespace RowStream

/-- The stream of all rows in a buffer. -/
def ofBytes (decoder : Decoder) (data : ByteArray) (schema : Schema) : RowStream :=
  ⟨decoder, data, schema, 0, false, []⟩

/-- What has not been read yet. -/
def rest (s : RowStream) : ByteArray := s.data.extract s.offset s.data.size

/-- Reads the next row, if there is one, and goes on behind it. Rows without width cannot be
counted. The diagnostics of a row that fails are kept. -/
def next (s : RowStream) : Option (Except Fault Value) × RowStream :=
  if s.done || s.data.size ≤ s.offset then (none, s)
  else
    let row := s.decoder.readSized s.rest s.rest.size s.schema
    let after := { s with diagnostics := s.diagnostics ++ row.diagnostics }
    match row.result with
    | .error e => (some (.error (.row s.offset e)), { after with done := true })
    | .ok (value, size) =>
      if size = 0 then
        (some (.error (.zeroWidthRow s.schema s.offset)), { after with done := true })
      else (some (.ok value), { after with offset := s.offset + size })

end RowStream

end RowFormat
