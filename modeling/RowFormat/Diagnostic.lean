namespace RowFormat

/-- Why a value became null without spoiling the rest of its row. -/
inductive DiagnosticKind
  | unknownKeyTag
  | unknownValueTag
  | malformedKey
  | invalidBoolKey
  | invalidIntKey
  | invalidFloatKey
  | valueTypeMismatch
  | unsupportedListElement
deriving DecidableEq

def DiagnosticKind.text : DiagnosticKind → String
  | .unknownKeyTag => "unknown_key_tag"
  | .unknownValueTag => "unknown_value_tag"
  | .malformedKey => "malformed_key"
  | .invalidBoolKey => "invalid_bool_key"
  | .invalidIntKey => "invalid_int_key"
  | .invalidFloatKey => "invalid_float_key"
  | .valueTypeMismatch => "value_type_mismatch"
  | .unsupportedListElement => "unsupported_list_element"

/-- A problem and the position of the slot or descriptor under which it was found. -/
structure Diagnostic where
  kind : DiagnosticKind
  position : Nat
  detail : String
deriving DecidableEq

def Diagnostic.text (d : Diagnostic) : String :=
  s!"{d.kind.text} at byte {d.position}: {d.detail}"

/-- Diagnostics in the order in which they were reported. -/
abbrev Diagnostics := List Diagnostic

namespace Diagnostics

def report (ds : Diagnostics) (kind : DiagnosticKind) (position : Nat) (detail : String) :
    Diagnostics :=
  ds ++ [⟨kind, position, detail⟩]

def hasKind (ds : Diagnostics) (kind : DiagnosticKind) : Bool := ds.any fun d => d.kind = kind

end Diagnostics

end RowFormat
