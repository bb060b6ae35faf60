import RowFormat.Word

namespace RowFormat

inductive NumeralError
  | empty
  | invalidDigit
  | tooLarge
  | tooSmall
deriving DecidableEq

def NumeralError.message : NumeralError → String
  | .empty => "cannot parse integer from empty string"
  | .invalidDigit => "invalid digit found in string"
  | .tooLarge => "number too large to fit in target type"
  | .tooSmall => "number too small to fit in target type"

namespace Numeral

/-- The value of a digit, with letters of either case after the nine. -/
def digit? (base : Nat) (c : Char) : Option Nat :=
  let value :=
    if '0' ≤ c ∧ c ≤ '9' then c.toNat - '0'.toNat
    else if 'a' ≤ c ∧ c ≤ 'z' then c.toNat - 'a'.toNat + 10
    else if 'A' ≤ c ∧ c ≤ 'Z' then c.toNat - 'A'.toNat + 10
    else base
  if value < base then some value else none

/-- Reads on from the number that the digits so far make, up to a largest number. A character is found not
to be a digit before the number it would have made is found too large. -/
def readDigits (base limit : Nat) (beyond : NumeralError) :
    Nat → List Char → Except NumeralError Nat
  | n, [] => .ok n
  | n, c :: cs =>
    match digit? base c with
    | none => .error .invalidDigit
    | some d =>
      if base * n + d ≤ limit then readDigits base limit beyond (base * n + d) cs
      else .error beyond

/-- Reads at least one digit. -/
def readSome (base limit : Nat) (beyond : NumeralError) (cs : List Char) :
    Except NumeralError Nat :=
  if cs.isEmpty then .error .invalidDigit else readDigits base limit beyond 0 cs

/-- Reads a number without a minus sign. -/
def readUnsigned (base limit : Nat) : List Char → Except NumeralError Nat
  | [] => .error .empty
  | '+' :: cs => readSome base limit .tooLarge cs
  | cs => readSome base limit .tooLarge cs

/-- Reads a signed decimal number of 64 bits. -/
def readInt64 : List Char → Except NumeralError Int64
  | [] => .error .empty
  | '-' :: cs => (readSome 10 signedLimit .tooSmall cs).map fun n => Int64.ofInt (-n)
  | '+' :: cs => (readSome 10 (signedLimit - 1) .tooLarge cs).map fun n => Int64.ofInt n
  | cs => (readSome 10 (signedLimit - 1) .tooLarge cs).map fun n => Int64.ofInt n

end Numeral

end RowFormat
