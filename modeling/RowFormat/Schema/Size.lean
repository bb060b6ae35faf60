import RowFormat.Descriptor
import RowFormat.NullBitmap
import RowFormat.Schema.Leaf

namespace RowFormat

namespace Schema

/-- The bytes that a capacity allows to look at. -/
def window (data : ByteArray) (capacity : Nat) : ByteArray := data.extract 0 capacity

/-- A size, if it fits the capacity. -/
def fit? (size capacity : Nat) : Option Nat := if size ≤ capacity then some size else none

/-- The length word at an offset, if it is not negative. -/
def lengthAt? (data : ByteArray) (offset : Nat) : Option Nat :=
  match (Span.ofBytes data).wordAt offset with
  | .error _ => none
  | .ok word => if word.toInt64.toInt < 0 then none else some word.toInt64.toInt.toNat

/-- The size of the slots of a tuple, if these and the region that the row declares behind them
fit the capacity. -/
def slotBytes? (s : Schema) (data : ByteArray) (capacity : Nat) : Option Nat :=
  let size := s.leaves.length * slotSize
  if s.isTuple ∧ size ≤ capacity then
    if s.isFixedSize then some size
    else
      let head := s.bitmapBytes + size
      match lengthAt? (window data capacity) head with
      | none => none
      | some length => if head + length ≤ capacity then some size else none
  else none

/-- The room in front of the variable-length region, the bitmap aside. A descriptor has to stay
inside the capacity. -/
def fixedBytes? (s : Schema) (data : ByteArray) (capacity : Nat) : Option Nat :=
  if s.hasDescriptor then
    match (Span.ofBytes data).descriptor with
    | .error _ => none
    | .ok descriptor => if descriptor.stop ≤ capacity then some slotSize else none
  else if s.isTuple then s.slotBytes? data capacity
  else some slotSize

/-- The size of a row of a schema that has a width and is not nullable: the bitmap, the slots, and without
a fixed size the variable-length region behind its length word. -/
def plainSize? (s : Schema) (data : ByteArray) (capacity : Nat) : Option Nat :=
  match s.fixedBytes? data capacity with
  | none => none
  | some fixed =>
    let size := fixed + s.bitmapBytes
    if s.isFixedSize then fit? size capacity
    else
      match lengthAt? data size with
      | none => none
      | some length => fit? (size + length + lengthWordSize) capacity

/-- Whether the bitmap in front of a nullable value marks it as null. -/
def embeddedNull? (data : ByteArray) : Option Bool :=
  match NullBitmap.embedded (Span.ofBytes data) with
  | .error _ => none
  | .ok (bitmap, _) => (bitmap.isNull 0).toOption

/-- The size of the row at the start of the data. A null takes its bitmap only. -/
def rowSize? : Schema → ByteArray → Nat → Option Nat
  | .option inner, data, capacity =>
    let data := window data capacity
    if inner.isZeroWidth then fit? bitmapWordSize capacity
    else
      match embeddedNull? data with
      | none => none
      | some true => fit? bitmapWordSize capacity
      | some false =>
        match inner.rowSize? (data.extract bitmapWordSize data.size) (capacity - bitmapWordSize) with
        | none => none
        | some size => fit? (bitmapWordSize + size) capacity
  | s, data, capacity =>
    if s.isZeroWidth then some 0 else s.plainSize? (window data capacity) capacity

/-- Whether the row at the start of the data is well-formed and fits a capacity that is not
empty. -/
def fitsIn (s : Schema) (data : ByteArray) (capacity : Nat) : Bool :=
  0 < capacity && (s.rowSize? data capacity).any (· ≤ capacity)

end Schema

end RowFormat
