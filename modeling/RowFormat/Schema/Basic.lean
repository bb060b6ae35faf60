import RowFormat.Layout

namespace RowFormat

/-- What a value is, and how much room it takes in front of the variable-length region. Nested tuples
have no slots of their own: their fields are laid out in line. -/
inductive Schema
  | bool
  | int
  | float
  | str
  | blob
  | null
  | emptyTuple
  | emptyList
  | emptyDict
  | tuple (fields : List Schema)
  | list (element : Schema)
  | dict
  | option (inner : Schema)

namespace Schema

/-- The tuple of some fields, which has a schema of its own if there are none. -/
def ofFields (fields : List Schema) : Schema :=
  if fields.isEmpty then .emptyTuple else .tuple fields

def listOf (element : Schema) : Schema := .list element

/-- Makes a schema nullable; one that is so already stays as it is. -/
def nullable : Schema → Schema
  | .option inner => .option inner
  | other => .option other

def isOption : Schema → Bool
  | .option _ => true
  | _ => false

/-- A tuple without fields has no width and does not count. -/
def isTuple : Schema → Bool
  | .tuple (_ :: _) => true
  | _ => false

def withoutOption : Schema → Schema
  | .option inner => inner
  | other => other

def element? : Schema → Option Schema
  | .list element => some element
  | _ => none

def fields : Schema → List Schema
  | .tuple fields => fields
  | _ => []

/-- Values that their schema determines take no room at all. -/
def isZeroWidth : Schema → Bool
  | .null | .emptyTuple | .emptyList | .emptyDict | .tuple [] => true
  | _ => false

mutual

/-- Whether all rows of a schema have the same size, nulls aside. -/
def isFixedSize : Schema → Bool
  | .bool | .int | .float | .null | .emptyTuple | .emptyList | .emptyDict => true
  | .str | .blob | .dict => false
  | .list element => element.isZeroWidth
  | .tuple fields => allFixedSize fields
  | .option inner => inner.isFixedSize

def allFixedSize : List Schema → Bool
  | [] => true
  | field :: fields => field.isFixedSize && allFixedSize fields

end

/-- Whether the slot holds a descriptor. A list without stored elements holds its count instead. -/
def hasDescriptor : Schema → Bool
  | .str | .blob | .dict => true
  | .list element => !element.isZeroWidth
  | _ => false

mutual

/-- The number of bits that the bitmap of a row has to provide. Nested tuples share the bitmap of
the row they lie in, and a nullable field has one bit whatever it holds. -/
def optionCount : Schema → Nat
  | .option _ => 1
  | .tuple fields => optionCounts fields
  | _ => 0

def optionCounts : List Schema → Nat
  | [] => 0
  | field :: fields => field.optionCount + optionCounts fields

end

def bitmapWords (s : Schema) : Nat := (s.optionCount + (bitmapWordBits - 1)) / bitmapWordBits

def bitmapBytes (s : Schema) : Nat := s.bitmapWords * bitmapWordSize

mutual

def text : Schema → String
  | .bool => "bool"
  | .int => "i64"
  | .float => "f64"
  | .str => "str"
  | .blob => "opaque"
  | .null => "null"
  | .emptyTuple => "()"
  | .emptyList => "[]"
  | .emptyDict => "\x7b\x7d"
  | .dict => "dict"
  | .list element => "list[" ++ element.text ++ "]"
  | .option inner => "option[" ++ inner.text ++ "]"
  | .tuple fields => "(" ++ ", ".intercalate (texts fields) ++ ")"

def texts : List Schema → List String
  | [] => []
  | field :: fields => field.text :: texts fields

end

instance : ToString Schema := ⟨text⟩

mutual

/-- Equality of schemas, part by part. -/
def same : Schema → Schema → Bool
  | .bool, .bool => true
  | .int, .int => true
  | .float, .float => true
  | .str, .str => true
  | .blob, .blob => true
  | .null, .null => true
  | .emptyTuple, .emptyTuple => true
  | .emptyList, .emptyList => true
  | .emptyDict, .emptyDict => true
  | .dict, .dict => true
  | .tuple a, .tuple b => sameAll a b
  | .list a, .list b => a.same b
  | .option a, .option b => a.same b
  | _, _ => false

def sameAll : List Schema → List Schema → Bool
  | [], [] => true
  | a :: as, b :: bs => a.same b && sameAll as bs
  | _, _ => false

end

instance : BEq Schema := ⟨same⟩

end Schema

end RowFormat
