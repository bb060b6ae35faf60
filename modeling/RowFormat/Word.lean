namespace RowFormat

/-- Words without a sign, and so all lengths and addresses, lie below this number. -/
abbrev wordLimit : Nat := 0x10000000000000000

/-- Signed words lie from the negative of this number up to, and without, the number itself. -/
abbrev signedLimit : Nat := 0x8000000000000000

/-- Half a word lies below this number. -/
abbrev halfLimit : Nat := 0x100000000

end RowFormat
