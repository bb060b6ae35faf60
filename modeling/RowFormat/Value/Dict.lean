import RowFormat.Value.Equality

namespace RowFormat

namespace Value

/-- Puts the value under the first equal key, or appends an entry. -/
def insertEntry (entries : List (Value × Value)) (key value : Value) : List (Value × Value) :=
  match entries with
  | [] => [(key, value)]
  | (k, v) :: rest =>
    if k == key then (k, value) :: rest else (k, v) :: insertEntry rest key value

/-- Inserts into a dict; any other value stays as it is. -/
def insert (d key value : Value) : Value :=
  match d with
  | .dict entries => .dict (insertEntry entries key value)
  | other => other

/-- The value under a key. Values other than dicts have none. -/
def get? (d key : Value) : Option Value :=
  match d with
  | .dict entries => (entries.find? fun (k, _) => k == key).map Prod.snd
  | _ => none

end Value

end RowFormat
