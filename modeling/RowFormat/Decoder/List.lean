import RowFormat.Decoder.Tuple
import RowFormat.Descriptor

namespace RowFormat

namespace Decoder

/-- Reads `n` slots, the first of which has index `i`. -/
def readCells (read : Nat → Span → Decoding Value) : (n i : Nat) → Span → Decoding (List Value)
  | 0, _, _ => pure []
  | n + 1, i, cell => do
    let item ← read i cell
    let next ← .access (cell.advance slotSize)
    let items ← readCells read n (i + 1) next
    pure (item :: items)

/-- The difference of two signed words, if it is one itself. -/
def wordDifference? (a b : Int) : Option Int :=
  if -signedLimit ≤ a - b ∧ a - b < signedLimit then some (a - b) else none

/-- The size of the string at offset `offset` from its slot, in a list of `count` strings whose
region has the length `regionLength`. Strings lie back to back, so a string ends where the next
one begins, and the last one where the region ends. -/
def stringSize (count regionLength i : Nat) (offset : Int) (cell : Span) : Decoding Int := do
  let size? ←
    if i + 1 = count then
      if count * slotSize < signedLimit then
        pure ((wordDifference? regionLength (count * slotSize : Nat)).bind (wordDifference? · offset))
      else .fail .stringTableOverflow
    else do
      let next ← .access (cell.wordAt slotSize)
      pure ((wordDifference? offset slotSize).bind (wordDifference? next.toInt64.toInt ·))
  match size? with
  | some size => pure size
  | none => .fail (.stringLengthOverflow cell.position)

/-- Reads the string number `i` of a list. The slot holds the distance from itself to the string,
and the string has a terminator that does not belong to its text. -/
def readListString (count regionLength i : Nat) (cell : Span) : Decoding Value := do
  let offset ← .access cell.int
  let size ← stringSize count regionLength i offset.toInt cell
  if size < 1 then .fail (.stringLength i cell.position size)
  else do
    let target ← .access (cell.advanceSigned offset)
    let bytes ← .access (target.bytes (size - 1).toNat)
    let text ← decodeText bytes target.position
    pure (.str text)

/-- Whether lists of the element can be stored. -/
def isListElement : Schema → Bool
  | .int | .float | .bool | .str | .dict | .tuple (_ :: _) => true
  | _ => false

/-- Reads an element of a list, given what reads its schema elsewhere. A truth value takes a whole
slot here, and strings share one table. -/
def readElement (element : Schema) (read : Reader) (count regionLength depth i : Nat) (cell : Span) :
    Decoding Value :=
  match element with
  | .bool => do
    let word ← .access cell.int
    pure (.bool (word != 0))
  | .str => readListString count regionLength i cell
  | _ => read cell none (depth + 1)

/-- Reads a list whose elements have no width. Only their count is stored, in the slot of the list
itself, and all of them are the same. -/
def readZeroWidthList (d : Decoder) (read : Reader) (span : Span) (depth : Nat) :
    Decoding Value := do
  let count ← readCount span
  if count ≤ d.maxZeroWidthLength then do
    let item ← read span none (depth + 1)
    pure (.list (List.replicate count item))
  else .fail (.zeroWidthCount count span.position d.maxZeroWidthLength)

/-- Reads a list whose elements have slots, in a region of their own behind their count. If they cannot
be stored there, every one is null. -/
def readSlotList (element : Schema) (read : Reader) (span : Span) (depth : Nat) :
    Decoding Value := do
  let descriptor ← .access span.descriptor
  let region ← .access (descriptor.target span)
  let count ← readCount region
  if count * slotSize ≤ region.remaining - slotSize then
    if isListElement element then do
      let first ← .access (region.advance slotSize)
      let items ← readCells
        (readElement element read count descriptor.length.toNat depth) count 0 first
      pure (.list items)
    else do
      .note .unsupportedListElement span.position s!"list element type {element} is not supported"
      pure (.list (List.replicate count .null))
  else if count * slotSize < wordLimit then .fail (.listPastEnd count region.position)
  else .fail (.countOverflow count)

def readList (d : Decoder) (element : Schema) (read : Reader) (span : Span) (depth : Nat) :
    Decoding Value := do
  .ofExcept (d.checkDepth depth span)
  if element.isZeroWidth then d.readZeroWidthList read span depth
  else readSlotList element read span depth

end Decoder

end RowFormat
