import RowFormat.Report
import RowFormat.Text.Numeral
import RowFormat.Text.Utf8

namespace RowFormat

inductive EscapeError
  | endAfterBackslash
  | unknownEscape (c : Char)
  | shortUnicode
  | invalidUnicode (digits : String) (cause : NumeralError)
  | unpairedHigh (unit : Nat)
  | highWithoutLow (high low : Nat)
  | invalidCodePoint (unit : Nat)
deriving DecidableEq

namespace EscapeError

/-- At least four hexadecimal digits in capitals. -/
def hexUnit (n : Nat) : String :=
  let digits := (Nat.toDigits 16 n).map Char.toUpper
  String.ofList (List.replicate (4 - digits.length) '0' ++ digits)

def report : EscapeError → Report
  | .endAfterBackslash => .plain "unexpected end of string after backslash"
  | .unknownEscape c => .plain s!"invalid escape sequence: \\{c}"
  | .shortUnicode => .plain "invalid unicode escape: incomplete sequence"
  | .invalidUnicode digits cause => .under s!"invalid unicode escape: \\u{digits}" (.plain cause.message)
  | .unpairedHigh unit => .plain s!"unpaired high surrogate U+{hexUnit unit}"
  | .highWithoutLow high low =>
    .plain s!"high surrogate U+{hexUnit high} followed by U+{hexUnit low}"
  | .invalidCodePoint unit => .plain s!"invalid unicode codepoint: U+{hexUnit unit}"

end EscapeError

namespace Escape

/-- Reads the number behind `\u`: four bytes of text that spell it in hexadecimal, where the first
may also be a plus sign. -/
def readUnit (cs : List Char) : Except EscapeError (Nat × List Char) :=
  let digits := cs.take 4
  if byteCount digits = 4 then
    match Numeral.readUnsigned 16 (halfLimit - 1) digits with
    | .ok unit => .ok (unit, cs.drop 4)
    | .error e => .error (.invalidUnicode (String.ofList digits) e)
  else .error .shortUnicode

/-- Whether the number is the first half of a pair. -/
def isHigh (unit : Nat) : Bool := 0xd800 ≤ unit && unit < 0xdc00

/-- Whether the number is the second half of a pair. -/
def isLow (unit : Nat) : Bool := 0xdc00 ≤ unit && unit < 0xe000

def joinPair (high low : Nat) : Nat := 0x10000 + (high - 0xd800) * 0x400 + (low - 0xdc00)

/-- Reads what follows `\u`, the second half of a pair included. -/
def readUnicode (cs : List Char) : Except EscapeError (Char × List Char) := do
  let (unit, rest) ← readUnit cs
  if isHigh unit then
    match rest with
    | '\\' :: 'u' :: more =>
      let (low, rest) ← readUnit more
      if isLow low then .ok (Char.ofNat (joinPair unit low), rest)
      else .error (.highWithoutLow unit low)
    | _ => .error (.unpairedHigh unit)
  else if unit.isValidChar then .ok (Char.ofNat unit, rest)
  else .error (.invalidCodePoint unit)

/-- The character that a backslash and one more character stand for. -/
def shortEscape? (c : Char) : Option Char :=
  if c = 'n' then some '\n'
  else if c = 'r' then some '\r'
  else if c = 't' then some '\t'
  else if c = 'b' then some '\x08'
  else if c = 'f' then some '\x0c'
  else if c = '\\' ∨ c = '"' ∨ c = '/' then some c
  else none

/-- Reads what follows a backslash. -/
def readEscape : List Char → Except EscapeError (Char × List Char)
  | [] => .error .endAfterBackslash
  | c :: rest =>
    if c = 'u' then readUnicode rest
    else
      match shortEscape? c with
      | some d => .ok (d, rest)
      | none => .error (.unknownEscape c)

/-- Reads the character that the front of a non-empty text stands for. -/
def readChar (c : Char) (cs : List Char) : Except EscapeError (Char × List Char) :=
  if c = '\\' then readEscape cs else .ok (c, cs)

theorem readUnit_length {cs rest : List Char} {unit : Nat}
    (h : readUnit cs = .ok (unit, rest)) : rest.length ≤ cs.length := by
  simp only [readUnit] at h
  split at h
  · split at h
    · cases h
      simp
    · cases h
  · cases h

theorem readUnicode_length {cs rest : List Char} {c : Char}
    (h : readUnicode cs = .ok (c, rest)) : rest.length ≤ cs.length := by
  unfold readUnicode at h
  cases hu : readUnit cs with
  | error e => rw [hu] at h; cases h
  | ok first =>
    obtain ⟨unit, after⟩ := first
    have hle := readUnit_length hu
    rw [hu] at h
    simp only [bind, Except.bind] at h
    split at h
    · split at h
      · next more =>
        cases hl : readUnit more with
        | error e => rw [hl] at h; cases h
        | ok second =>
          obtain ⟨low, last⟩ := second
          have hlast := readUnit_length hl
          rw [hl] at h
          simp only at h
          split at h
          · simp only [Except.ok.injEq, Prod.mk.injEq] at h
            simp only [List.length_cons] at hle
            rw [← h.2]
            omega
          · cases h
      · cases h
    · split at h
      · simp only [Except.ok.injEq, Prod.mk.injEq] at h
        rw [← h.2]
        exact hle
      · cases h

theorem readEscape_length {cs rest : List Char} {c : Char}
    (h : readEscape cs = .ok (c, rest)) : rest.length ≤ cs.length := by
  cases cs with
  | nil => cases h
  | cons first cs =>
    simp only [readEscape] at h
    split at h
    · exact Nat.le_succ_of_le (readUnicode_length h)
    · split at h <;> cases h
      simp

/-- Reading a character never lengthens what is left. -/
theorem readChar_length {first : Char} {cs rest : List Char} {c : Char}
    (h : readChar first cs = .ok (c, rest)) : rest.length ≤ cs.length := by
  unfold readChar at h
  split at h
  · exact readEscape_length h
  · cases h
    exact Nat.le_refl _

/-- Replaces every escape by the character that it stands for. -/
def unescapeList : List Char → Except EscapeError (List Char)
  | [] => .ok []
  | first :: cs =>
    match _h : readChar first cs with
    | .error e => .error e
    | .ok (c, rest) =>
      match unescapeList rest with
      | .error e => .error e
      | .ok out => .ok (c :: out)
termination_by cs => cs.length
decreasing_by
  have := readChar_length _h
  simp only [List.length_cons]
  omega

end Escape

/-- Replaces every escape in the text of a JSON string by the character that it stands for. -/
def unescape (text : String) : Except EscapeError String :=
  (Escape.unescapeList text.toList).map String.ofList

end RowFormat
