import RowFormat.Span

namespace RowFormat

/-- Where a payload lies: its offset from the descriptor, in the low half of a word, and its length, in
the high half. -/
structure Descriptor where
  offset : UInt32
  length : UInt32
deriving DecidableEq

namespace Descriptor

def ofWord (w : UInt64) : Descriptor :=
  ⟨UInt32.ofNat w.toNat, UInt32.ofNat (w.toNat / halfLimit)⟩

def toWord (d : Descriptor) : UInt64 :=
  UInt64.ofNat (d.offset.toNat + halfLimit * d.length.toNat)

theorem ofWord_toWord (d : Descriptor) : ofWord d.toWord = d := by
  obtain ⟨offset, length⟩ := d
  have hoffset := offset.toNat_lt
  have hlength := length.toNat_lt
  have hword : (toWord ⟨offset, length⟩).toNat = offset.toNat + halfLimit * length.toNat := by
    simp only [toWord, UInt64.toNat_ofNat', halfLimit]
    omega
  simp only [ofWord, hword, mk.injEq]
  constructor
  · apply UInt32.toNat_inj.mp
    simp only [UInt32.toNat_ofNat', halfLimit]
    omega
  · apply UInt32.toNat_inj.mp
    simp only [UInt32.toNat_ofNat', halfLimit]
    omega

/-- One past the last byte of the payload, counted from the descriptor. -/
def stop (d : Descriptor) : Nat := d.offset.toNat + d.length.toNat

/-- Where the payload begins, for a descriptor that was read at `place`. -/
def target (d : Descriptor) (place : Span) : Except BoundsError Span :=
  place.advance d.offset.toNat

/-- The payload, for a descriptor that was read at `place`. -/
def payload (d : Descriptor) (place : Span) : Except BoundsError ByteArray := do
  let start ← d.target place
  start.bytes d.length.toNat

end Descriptor

def Span.descriptor (s : Span) : Except BoundsError Descriptor := s.word.map Descriptor.ofWord

end RowFormat
