namespace RowFormat

/-- The number of bytes that encode some characters. -/
def byteCount : List Char → Nat
  | [] => 0
  | c :: cs => c.utf8Size + byteCount cs

@[simp] theorem byteCount_append (cs ds : List Char) :
    byteCount (cs ++ ds) = byteCount cs + byteCount ds := by
  induction cs with
  | nil => simp [byteCount]
  | cons c cs ih => simp [byteCount, ih, Nat.add_assoc]

/-- The first ill-formed part of a byte string. Its length is missing if the bytes end inside a
character that was well-formed so far. -/
structure Utf8Fault where
  start : Nat
  length : Option Nat
deriving DecidableEq

namespace Utf8Fault

def message (f : Utf8Fault) : String :=
  match f.length with
  | some n => s!"invalid utf-8 sequence of {n} bytes from index {f.start}"
  | none => s!"incomplete utf-8 byte sequence from index {f.start}"

/-- The ranges that the bytes after a lead byte have to fall in; a byte that leads nothing has
none. The narrower ranges exclude overlong forms, surrogates and what lies above the last plane. -/
def following (lead : UInt8) : List (UInt8 × UInt8) :=
  if lead < 0xc2 then []
  else if lead ≤ 0xdf then [(0x80, 0xbf)]
  else if lead = 0xe0 then [(0xa0, 0xbf), (0x80, 0xbf)]
  else if lead = 0xed then [(0x80, 0x9f), (0x80, 0xbf)]
  else if lead ≤ 0xef then [(0x80, 0xbf), (0x80, 0xbf)]
  else if lead = 0xf0 then [(0x90, 0xbf), (0x80, 0xbf), (0x80, 0xbf)]
  else if lead ≤ 0xf3 then [(0x80, 0xbf), (0x80, 0xbf), (0x80, 0xbf)]
  else if lead = 0xf4 then [(0x80, 0x8f), (0x80, 0xbf), (0x80, 0xbf)]
  else []

/-- Scans for the first ill-formed part. `pending` holds the ranges that the character begun at
`start` still waits for. -/
def scan (start index : Nat) (pending : List (UInt8 × UInt8)) : List UInt8 → Option Utf8Fault
  | [] => if pending.isEmpty then none else some ⟨start, none⟩
  | b :: rest =>
    match pending with
    | (low, high) :: more =>
      if low ≤ b ∧ b ≤ high then scan start (index + 1) more rest
      else some ⟨start, some (index - start)⟩
    | [] =>
      if b < 0x80 then scan index (index + 1) [] rest
      else if (following b).isEmpty then some ⟨index, some 1⟩
      else scan index (index + 1) (following b) rest

/-- The first ill-formed part of bytes that are no text. -/
def locate (bytes : ByteArray) : Utf8Fault :=
  (scan 0 0 [] bytes.data.toList).getD ⟨bytes.size, none⟩

end Utf8Fault

/-- The text whose encoding the bytes are. -/
def readText (bytes : ByteArray) : Except Utf8Fault String :=
  match String.fromUTF8? bytes with
  | some text => .ok text
  | none => .error (.locate bytes)

end RowFormat
