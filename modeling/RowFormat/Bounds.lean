namespace RowFormat

/-- An access outside the buffer or outside a null bitmap. Positions count from the start of the
buffer. -/
inductive BoundsError
  | offsetOverflow (position : Nat)
  | offsetPastEnd (offset size position : Nat)
  | negativeOffset (offset : Int) (position : Nat)
  | lengthOverflow (position : Nat)
  | readPastEnd (length position size : Nat)
  | bitmapPastEnd (words position : Nat)
  | wordOutOfRange (index words : Nat)
deriving DecidableEq

namespace BoundsError

def message : BoundsError → String
  | .offsetOverflow position => s!"span offset overflow at position {position}"
  | .offsetPastEnd offset size position =>
    s!"span offset {offset} past end of buffer ({size} bytes) from position {position}"
  | .negativeOffset offset position => s!"negative offset {offset} at position {position}"
  | .lengthOverflow position => s!"read length overflow at position {position}"
  | .readPastEnd length position size =>
    s!"read of {length} bytes at position {position} exceeds buffer of {size} bytes"
  | .bitmapPastEnd words position =>
    s!"null bitmap of {words} words at position {position} exceeds buffer"
  | .wordOutOfRange index words => s!"bitmap word {index} out of range (words={words})"

end BoundsError

end RowFormat
