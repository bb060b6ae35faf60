import RowFormat.Bounds
import RowFormat.Report
import RowFormat.Schema.Leaf
import RowFormat.Text.Utf8

namespace RowFormat

/-- A stack of open tuples that does not fit the leaves it is built from. -/
inductive FrameFault
  | noFrame
  | rootClosed
  | fieldOutOfRange (index : Nat)
  | tupleOutOfRange (index : Nat)
  | noTuple (path : Path)
deriving DecidableEq

/-- Why a row cannot be decoded. A fault inside a field, or inside a row of a stream, has a context
around its cause. -/
inductive Fault
  | bounds (cause : BoundsError)
  | tooDeep (depth limit position : Nat)
  | negativeCount (count : Int) (position : Nat)
  | zeroWidthCount (count position limit : Nat)
  | countOverflow (count : Nat)
  | listPastEnd (count position : Nat)
  | invalidText (position : Nat) (cause : Utf8Fault)
  | stringTableOverflow
  | stringLengthOverflow (position : Nat)
  | stringLength (index position : Nat) (length : Int)
  | dictUnparsed (length position : Nat)
  | dictKind (position : Nat) (kind : String)
  | notTuple (schema : Schema)
  | frame (cause : FrameFault)
  | malformedRow (schema : Schema) (capacity : Nat)
  | zeroWidthRow (schema : Schema) (offset : Nat)
  | blob (position : Nat) (cause : Report)
  | field (path : Path) (schema : Schema) (position : Nat) (cause : Fault)
  | row (offset : Nat) (cause : Fault)

def FrameFault.message : FrameFault → String
  | .noFrame => "tuple frame stack underflow"
  | .rootClosed => "closed the root tuple frame"
  | .fieldOutOfRange index => s!"field index {index} out of range in tuple frame"
  | .tupleOutOfRange index => s!"sub-tuple index {index} out of range"
  | .noTuple path => s!"no sub-tuple at path {path.text}"

namespace Fault

def report : Fault → Report
  | .bounds cause => .plain cause.message
  | .tooDeep depth limit position =>
    .plain s!"nesting depth {depth} exceeds maximum {limit} at position {position}"
  | .negativeCount count position =>
    .plain s!"negative element count {count} at position {position}"
  | .zeroWidthCount count position limit =>
    .plain s!"list of {count} zero-width elements at position {position} exceeds limit {limit}"
  | .countOverflow count => .plain s!"list element count {count} overflows"
  | .listPastEnd count position =>
    .plain s!"list of {count} elements at position {position} exceeds buffer"
  | .invalidText position cause =>
    .plain s!"invalid UTF-8 in string at position {position}: {cause.message}"
  | .stringTableOverflow => .plain "string list offset table overflows"
  | .stringLengthOverflow position =>
    .plain s!"string list length overflow at position {position}"
  | .stringLength index position length =>
    .plain s!"string list element {index} at position {position} has invalid length {length}"
  | .dictUnparsed length position =>
    .plain s!"could not parse dict payload of {length} bytes at position {position}"
  | .dictKind position kind =>
    .plain s!"dict payload at position {position} is a {kind}, expected an object"
  | .notTuple schema => .plain s!"tuple tree requires a tuple type, got {schema}"
  | .frame cause => .plain cause.message
  | .malformedRow schema capacity =>
    .plain s!"row of type {schema} is malformed or exceeds capacity {capacity}"
  | .zeroWidthRow schema offset =>
    .plain s!"zero-width rows of type {schema} cannot be stepped through at offset {offset}"
  | .blob position cause => .under s!"opaque payload at position {position}" cause
  | .field path schema position cause =>
    .under s!"field {path.text} of type {schema} at position {position}" cause.report
  | .row offset cause => .under s!"row at offset {offset}" cause.report

end Fault

/-- The leaves of a schema that has to be a tuple. -/
def Schema.leaves? (s : Schema) : Except Fault (List Leaf) :=
  if s.isTuple then .ok s.leaves else .error (.notTuple s)

end RowFormat
