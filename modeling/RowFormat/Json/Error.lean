import RowFormat.Json.Escape
import RowFormat.Json.Token

namespace RowFormat

/-- The part of a document that a text ends in the middle of. -/
inductive JsonPlace
  | value
  | array
  | object
deriving DecidableEq

/-- Why a text is no JSON document. Positions count bytes of the text. -/
inductive JsonError
  | unexpectedCharacter (lead : UInt8) (position : Nat)
  | expectedWord (word : String) (position : Nat)
  | unterminatedString (position : Nat)
  | invalidNumber (text : String) (position : Nat) (cause : FloatTextError)
  | escape (cause : EscapeError)
  | unexpectedEnd (place : JsonPlace) (position : Nat)
  | unexpectedToken (token : JsonToken) (position : Nat)
  | expectedInArray (token : JsonToken) (position : Nat)
  | expectedInObject (token : JsonToken) (position : Nat)
  | expectedKey (token : JsonToken) (position : Nat)
  | expectedColon (position : Nat)
  | tooDeep (depth limit position : Nat)
  | trailing (position : Nat)
deriving DecidableEq

namespace JsonError

/-- A character is named by its first byte alone. -/
def report : JsonError → Report
  | .unexpectedCharacter lead position =>
    .plain s!"unexpected character '{Char.ofNat lead.toNat}' at position {position}"
  | .expectedWord word position => .plain s!"expected '{word}' at position {position}"
  | .unterminatedString position => .plain s!"unterminated string starting at position {position}"
  | .invalidNumber text position cause =>
    .under s!"invalid number '{text}' at position {position}" (.plain cause.message)
  | .escape cause => cause.report
  | .unexpectedEnd .value position => .plain s!"unexpected end of input at position {position}"
  | .unexpectedEnd .array position =>
    .plain s!"unexpected end of input in array at position {position}"
  | .unexpectedEnd .object position =>
    .plain s!"unexpected end of input in object at position {position}"
  | .unexpectedToken token position => .plain s!"unexpected token {token} at position {position}"
  | .expectedInArray token position =>
    .plain s!"expected ',' or ']' in array, got {token} at position {position}"
  | .expectedInObject token position =>
    .plain s!"expected ',' or '\x7d' in object, got {token} at position {position}"
  | .expectedKey token position =>
    .plain s!"expected string key, got {token} at position {position}"
  | .expectedColon position => .plain s!"expected ':' after object key at position {position}"
  | .tooDeep depth limit position =>
    .plain s!"JSON nesting depth {depth} exceeds maximum {limit} at position {position}"
  | .trailing position =>
    .plain s!"trailing characters after JSON value at position {position}"

end JsonError

end RowFormat
