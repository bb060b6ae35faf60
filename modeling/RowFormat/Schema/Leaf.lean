import RowFormat.Schema.Basic

namespace RowFormat

/-- The index of a field, then the index inside it, and so on inwards. -/
abbrev Path := List Nat

namespace Path

def text (p : Path) : String := "[" ++ ", ".intercalate (p.map toString) ++ "]"

/-- The length of the part that two paths have in common from the start. -/
def sharedLength : Path → Path → Nat
  | i :: p, j :: q => if i = j then sharedLength p q + 1 else 0
  | _, _ => 0

end Path

/-- A field that is no tuple itself, and where it lies. A nullable tuple is a leaf: it is a row of its
own. -/
structure Leaf where
  path : Path
  schema : Schema

namespace Schema

mutual

/-- The leaves of a field that lies at `path`. -/
def leavesAt : Schema → Path → List Leaf
  | .tuple (field :: fields), path => leavesFrom (field :: fields) path 0
  | schema, path => [⟨path, schema⟩]

/-- The leaves of some fields, the first of which has the given index under `path`. -/
def leavesFrom : List Schema → Path → Nat → List Leaf
  | [], _, _ => []
  | field :: fields, path, i => leavesAt field (path ++ [i]) ++ leavesFrom fields path (i + 1)

end

/-- The leaves in the order of their slots. -/
def leaves (s : Schema) : List Leaf := leavesFrom s.fields [] 0

/-- Follows a path inwards through tuples. -/
def fieldAt? : Schema → Path → Option Schema
  | s, [] => some s
  | s, i :: path =>
    match s.fields[i]? with
    | some field => field.fieldAt? path
    | none => none

end Schema

end RowFormat
