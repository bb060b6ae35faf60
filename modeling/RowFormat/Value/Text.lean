import RowFormat.Binary64.Text
import RowFormat.Value.Basic

namespace RowFormat

namespace Value

mutual

/-- A value as readable text. Strings stand between single quotes as they are, and a tuple of one item
has a comma behind it. -/
def text : Value → String
  | .null => "None"
  | .bool true => "True"
  | .bool false => "False"
  | .int value => toString value.toInt
  | .float value => value.text
  | .str value => "'" ++ value ++ "'"
  | .tuple items =>
    "(" ++ ", ".intercalate (texts items) ++ (if items.length = 1 then ",)" else ")")
  | .list items => "[" ++ ", ".intercalate (texts items) ++ "]"
  | .dict entries => "\x7b" ++ ", ".intercalate (entryTexts entries) ++ "\x7d"
  | .blob bytes => s!"<opaque {bytes.size} bytes>"

def texts : List Value → List String
  | [] => []
  | item :: items => item.text :: texts items

def entryTexts : List (Value × Value) → List String
  | [] => []
  | (k, v) :: entries => (k.text ++ ": " ++ v.text) :: entryTexts entries

end

instance : ToString Value := ⟨text⟩

end Value

end RowFormat
