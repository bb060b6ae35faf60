import RowFormat.Binary64.Round
import RowFormat.Binary64.Shortest

namespace RowFormat

inductive FloatTextError
  | empty
  | invalid
deriving DecidableEq

def FloatTextError.message : FloatTextError → String
  | .empty => "cannot parse float from empty string"
  | .invalid => "invalid float literal"

namespace Binary64

/-- Digits with a point inside them or zeros around them, and at least one digit on both sides of
the point. -/
def positional (digits : List Char) (scale : Int) : List Char :=
  let whole : Int := digits.length + scale
  if 0 ≤ scale then digits ++ List.replicate scale.toNat '0' ++ ['.', '0']
  else if 0 < whole then digits.take whole.toNat ++ '.' :: digits.drop whole.toNat
  else '0' :: '.' :: List.replicate (-whole).toNat '0' ++ digits

/-- One digit, a point if more follow, and the power of ten. -/
def scientific (digits : List Char) (scale : Int) : List Char :=
  let power : Int := digits.length + scale - 1
  let mantissa :=
    match digits with
    | first :: second :: more => first :: '.' :: second :: more
    | short => short
  mantissa ++ 'e' :: (toString power).toList

/-- A positive finite number. -/
def textOfPositive (x : Binary64) : List Char :=
  let d := x.shortest
  let digits := Nat.toDigits 10 d.digits
  let power : Int := digits.length + d.scale - 1
  if -4 ≤ power ∧ power < 16 then positional digits d.scale else scientific digits d.scale

/-- The fewest digits that read back as the number, in positional form between `1e-4` and `1e16` and
otherwise with an exponent. -/
def text (x : Binary64) : String :=
  if x.isNaN then "NaN"
  else
    let size :=
      if x.isInfinite then ['i', 'n', 'f']
      else if x.isZero then ['0', '.', '0']
      else textOfPositive x
    String.ofList (if x.isNegative then '-' :: size else size)

instance : ToString Binary64 := ⟨text⟩

/-- The number that decimal digits make. -/
def digitsValue (cs : List Char) : Nat :=
  cs.foldl (fun n c => 10 * n + (c.toNat - '0'.toNat)) 0

/-- The number that the digits of an exponent make. Once it has reached 65536, further digits do
not count: only a number with tens of thousands of digits could tell. -/
def powerValue (cs : List Char) : Nat :=
  cs.foldl (fun n c => if n < 0x10000 then 10 * n + (c.toNat - '0'.toNat) else n) 0

/-- At least one digit and nothing else. -/
def readPower (cs : List Char) : Option Nat :=
  if cs.isEmpty || !cs.all Char.isDigit then none else some (powerValue cs)

/-- The power of ten behind an exponent mark. -/
def readExponent : List Char → Option Int
  | '-' :: cs => (readPower cs).map fun n => -n
  | '+' :: cs => (readPower cs).map fun n => n
  | cs => (readPower cs).map fun n => n

/-- Digits with at most one point among them, and an exponent. -/
def readDecimal (cs : List Char) : Option Decimal :=
  let whole := cs.takeWhile Char.isDigit
  let rest := cs.dropWhile Char.isDigit
  let fraction := match rest with
    | '.' :: more => more.takeWhile Char.isDigit
    | _ => []
  let rest := match rest with
    | '.' :: more => more.dropWhile Char.isDigit
    | _ => rest
  let digits := whole ++ fraction
  if digits.isEmpty then none
  else
    match rest with
    | [] => some ⟨digitsValue digits, -fraction.length⟩
    | 'e' :: more | 'E' :: more =>
      (readExponent more).map fun power => ⟨digitsValue digits, power - fraction.length⟩
    | _ => none

/-- The magnitudes that are written by name, in letters of either case. -/
def readName (cs : List Char) : Option Nat :=
  let name := String.ofList (cs.map Char.toLower)
  if name == "inf" || name == "infinity" then some infinityMagnitude
  else if name == "nan" then some (infinityMagnitude + fractionLimit / 2)
  else none

def readUnsigned (negative : Bool) (cs : List Char) : Except FloatTextError Binary64 :=
  match readDecimal cs with
  | some d => .ok (ofDecimal negative d.digits d.scale)
  | none =>
    match readName cs with
    | some magnitude => .ok (ofMagnitude negative magnitude)
    | none => .error .invalid

/-- Reads the number nearest to what the text says. -/
def read : List Char → Except FloatTextError Binary64
  | [] => .error .empty
  | '-' :: cs => readUnsigned true cs
  | '+' :: cs => readUnsigned false cs
  | cs => readUnsigned false cs

end Binary64

end RowFormat
