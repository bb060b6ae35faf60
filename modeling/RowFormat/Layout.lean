namespace RowFormat

/-- A scalar, a descriptor, an inline element count and a word of the null bitmap take one slot each. -/
abbrev slotSize : Nat := 8

/-- A descriptor fills exactly one slot. -/
abbrev descriptorSize : Nat := slotSize

/-- The word in front of the variable-length region fills exactly one slot. -/
abbrev lengthWordSize : Nat := slotSize

/-- One word of the null bitmap covers this many nullable fields. -/
abbrev bitmapWordBits : Nat := 64

/-- Bitmap words share the alignment of the slots behind them. -/
abbrev bitmapWordSize : Nat := slotSize

/-- The number of containers that may be open around a value, unless a decoder says otherwise. -/
abbrev defaultMaxDepth : Nat := 16

/-- The most elements that a list without stored elements may claim, unless a decoder says otherwise. -/
abbrev defaultMaxZeroWidthLength : Nat := 65536

end RowFormat
