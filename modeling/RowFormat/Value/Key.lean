import RowFormat.Value.Basic

namespace RowFormat

/-- A scalar in a form in which equality of values is plain equality. -/
inductive Key
  | null
  | bool (value : Bool)
  | int (value : Int64)
  | float (bits : UInt64)
  | str (value : String)
deriving DecidableEq, Hashable

/-- Containers and blobs have no key, nor has a NaN, which equals nothing. The two zeros share
one. -/
def Value.key? : Value → Option Key
  | .null => some .null
  | .bool value => some (.bool value)
  | .int value => some (.int value)
  | .float value =>
    if value.isNaN then none
    else if value.isZero then some (.float Binary64.zero.bits)
    else some (.float value.bits)
  | .str value => some (.str value)
  | _ => none

end RowFormat
