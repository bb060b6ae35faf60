import RowFormat.Decoder.Frame
import RowFormat.NullBitmap

namespace RowFormat

/-- Reads a value at a place, with its null bit if it is a nullable field, inside a number of
containers. -/
abbrev Reader := Span → Option NullBit → Nat → Decoding Value

/-- A leaf of a tuple and what reads it. -/
structure LeafReader where
  leaf : Leaf
  read : Reader

/-- How far the leaves of a row have been read: the open tuples, the path of the last leaf, and
the bit and the slot that come next. -/
structure RowState where
  frames : List Frame
  last : Path
  bit : Nat
  offset : Nat

namespace Decoder

/-- Reads the next leaf of the row with schema `root`. Every nullable leaf takes a bit, and every
leaf with a width takes a slot, null or not. -/
def readLeaf (d : Decoder) (root : Schema) (row : Span) (bitmap : NullBitmap) (fixed : Span)
    (depth : Nat) (state : RowState) (reader : LeafReader) : Decoding RowState := do
  let path := reader.leaf.path
  let schema := reader.leaf.schema
  let shared := Path.sharedLength state.last path
  let frames ← .ofExcept
    ((Frame.closeMany (state.frames.length - (shared + 1)) state.frames).mapError Fault.frame)
  let frames ← .ofExcept
    (Frame.openMany d row depth root path (List.range' (shared + 1) (path.length - 1 - shared)) frames)
  let slot ← .access (fixed.advance state.offset)
  let bit := if schema.isOption then some ⟨bitmap, state.bit⟩ else none
  let value ← (reader.read slot bit (depth + frames.length)).within
    (Fault.field path schema slot.position)
  let frames ← .ofExcept
    ((Frame.setField frames (path.getLastD 0) value).mapError Fault.frame)
  pure
    { frames
      last := path
      bit := if schema.isOption then state.bit + 1 else state.bit
      offset := if schema.withoutOption.isZeroWidth then state.offset else state.offset + slotSize }

/-- Reads a row with schema `root`: its bitmap, and then its leaves from the slots behind. -/
def readTuple (d : Decoder) (root : Schema) (readers : List LeafReader) (row : Span) (depth : Nat) :
    Decoding Value := do
  .ofExcept (d.checkDepth depth row)
  let bitmap ← .access (NullBitmap.ofSpan row root.bitmapWords)
  let fixed ← .access (row.advance bitmap.byteCount)
  let start : RowState :=
    { frames := [Frame.empty 0 root.fields.length], last := [], bit := 0, offset := 0 }
  let state ← readers.foldlM (d.readLeaf root row bitmap fixed depth) start
  let frames ← .ofExcept
    ((Frame.closeMany (state.frames.length - 1) state.frames).mapError Fault.frame)
  .ofExcept ((Frame.root frames).mapError Fault.frame)

end Decoder

end RowFormat
