import RowFormat.Binary64.Basic

namespace RowFormat

/-- A decoded value. The keys of a dict may be of any kind, so its entries are pairs in order. -/
inductive Value
  | null
  | bool (value : Bool)
  | int (value : Int64)
  | float (value : Binary64)
  | str (value : String)
  | tuple (items : List Value)
  | list (items : List Value)
  | dict (entries : List (Value × Value))
  | blob (bytes : ByteArray)

namespace Value

def emptyTuple : Value := .tuple []

def emptyList : Value := .list []

def emptyDict : Value := .dict []

def isNull : Value → Bool
  | .null => true
  | _ => false

def bool? : Value → Option Bool
  | .bool value => some value
  | _ => none

def int? : Value → Option Int64
  | .int value => some value
  | _ => none

def float? : Value → Option Binary64
  | .float value => some value
  | _ => none

def str? : Value → Option String
  | .str value => some value
  | _ => none

def tuple? : Value → Option (List Value)
  | .tuple items => some items
  | _ => none

def list? : Value → Option (List Value)
  | .list items => some items
  | _ => none

def dict? : Value → Option (List (Value × Value))
  | .dict entries => some entries
  | _ => none

end Value

end RowFormat
