import RowFormat.Binary64.Text
import RowFormat.Text.Quoted

namespace RowFormat

inductive JsonToken
  | objectStart
  | objectEnd
  | arrayStart
  | arrayEnd
  | colon
  | comma
  | null
  | bool (value : Bool)
  | number (value : Binary64)
  | string (value : String)
deriving DecidableEq

namespace JsonToken

/-- The name of a token, as error messages give it. -/
def text : JsonToken → String
  | .objectStart => "ObjectStart"
  | .objectEnd => "ObjectEnd"
  | .arrayStart => "ArrayStart"
  | .arrayEnd => "ArrayEnd"
  | .colon => "Colon"
  | .comma => "Comma"
  | .null => "Null"
  | .bool value => s!"Bool({value})"
  | .number value => s!"Number({value})"
  | .string value => s!"String({quoted value})"

instance : ToString JsonToken := ⟨text⟩

end JsonToken

end RowFormat
