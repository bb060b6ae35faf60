import RowFormat.Binary64.Basic
import RowFormat.Bounds
import RowFormat.Layout
import RowFormat.Word

namespace RowFormat

/-- The number whose digits to base 256 are the given bytes, the least significant first. -/
def littleEndian : List UInt8 → Nat
  | [] => 0
  | b :: bs => b.toNat + 256 * littleEndian bs

/-- A position in a buffer. Offsets are relative to it, while errors name positions from the start of
the buffer. -/
structure Span where
  data : ByteArray
  position : Nat

namespace Span

/-- The start of a buffer. -/
def ofBytes (data : ByteArray) : Span := ⟨data, 0⟩

/-- The number of bytes from the position on. -/
def remaining (s : Span) : Nat := s.data.size - s.position

/-- The position `offset` bytes further on. The end of the buffer is a position too: values
without width live there. -/
def advance (s : Span) (offset : Nat) : Except BoundsError Span :=
  if s.position + offset ≤ s.data.size then .ok { s with position := s.position + offset }
  else if s.position + offset < wordLimit then
    .error (.offsetPastEnd offset s.data.size s.position)
  else .error (.offsetOverflow s.position)

/-- Advances by an offset that was stored as a signed word. -/
def advanceSigned (s : Span) (offset : Int64) : Except BoundsError Span :=
  if offset.toInt < 0 then .error (.negativeOffset offset.toInt s.position)
  else s.advance offset.toInt.toNat

/-- The next `length` bytes. -/
def bytes (s : Span) (length : Nat) : Except BoundsError ByteArray :=
  if s.position + length ≤ s.data.size then
    .ok (s.data.extract s.position (s.position + length))
  else if s.position + length < wordLimit then
    .error (.readPastEnd length s.position s.data.size)
  else .error (.lengthOverflow s.position)

/-- The number in the next `width` bytes. -/
def number (s : Span) (width : Nat) : Except BoundsError Nat :=
  (s.bytes width).map fun b => littleEndian b.data.toList

theorem advance_eq_ok_iff {s t : Span} {offset : Nat} :
    s.advance offset = .ok t ↔
      s.position + offset ≤ s.data.size ∧ t = ⟨s.data, s.position + offset⟩ := by
  unfold advance
  by_cases h : s.position + offset ≤ s.data.size
  · simp [h, eq_comm]
  · rw [if_neg h]
    split <;> simp [h]

theorem bytes_eq_ok_iff {s : Span} {length : Nat} {b : ByteArray} :
    s.bytes length = .ok b ↔
      s.position + length ≤ s.data.size ∧
        b = s.data.extract s.position (s.position + length) := by
  unfold bytes
  by_cases h : s.position + length ≤ s.data.size
  · simp [h, eq_comm]
  · rw [if_neg h]
    split <;> simp [h]

def byte (s : Span) : Except BoundsError UInt8 := (s.number 1).map UInt8.ofNat

def word (s : Span) : Except BoundsError UInt64 := (s.number slotSize).map UInt64.ofNat

def int (s : Span) : Except BoundsError Int64 := s.word.map UInt64.toInt64

def float (s : Span) : Except BoundsError Binary64 := s.word.map Binary64.mk

def wordAt (s : Span) (offset : Nat) : Except BoundsError UInt64 := do
  let place ← s.advance offset
  place.word

end Span

end RowFormat
