import ConstFold.Decimal.Basic

/-!
# Numerals

The text of a decimal. Small and large numbers are written in scientific form, all others
positionally with at least one digit after the point. Reading takes both forms, and any number of
digits.

A finite floating-point datum is written as the numeral of its shortest decimal, with a sign if its
sign bit is set, zeros included. An infinity is `inf` or `-inf`, and every NaN is `NaN`.

## Main definitions

* `Numeral.write`: the numeral of a decimal.
* `Numeral.read?`: the sign and the decimal of a numeral.
* `Binary.text`: the text of a datum.

## Implementation notes

A number is small below `10 ^ -4` and large from `10 ^ 16` on; zero is neither. For a nonzero
coefficient this is a condition on the exponent of the leading digit.
-/

namespace ConstFold

namespace Numeral

/-! ### Writing -/

/-- The least exponent of a leading digit that is written positionally. -/
def positionalFrom : Int := -4

/-- The least exponent of a leading digit that is too large to be written positionally. -/
def scientificFrom : Int := 16

def leadingExponent (d : Decimal) : Int :=
  d.exponent + (Radix.write 10 d.coefficient).length - 1

def isPositional (d : Decimal) : Bool :=
  d.coefficient = 0 ∨
    positionalFrom ≤ leadingExponent d ∧ leadingExponent d < scientificFrom

/-- The positional form: digits, a point, and at least one more digit. -/
def positional (d : Decimal) : List Char :=
  let digits := Radix.write 10 d.coefficient
  let whole := d.exponent + digits.length
  if 0 ≤ d.exponent then digits ++ List.replicate d.exponent.toNat '0' ++ ['.', '0']
  else if 0 < whole then digits.take whole.toNat ++ '.' :: digits.drop whole.toNat
  else '0' :: '.' :: List.replicate (-whole).toNat '0' ++ digits

/-- The scientific form: the leading digit, the others after a point if there are any, and the
exponent of the leading digit. -/
def scientific (d : Decimal) : List Char :=
  let exponent := 'e' :: Radix.writeInt (leadingExponent d)
  match Radix.write 10 d.coefficient with
  | [] => exponent
  | [c] => c :: exponent
  | c :: rest => c :: '.' :: rest ++ exponent

def write (d : Decimal) : List Char :=
  if isPositional d then positional d else scientific d

/-! ### Reading -/

/-- The digits after a point, and the rest. There may be no point, but a point has a digit after
it. -/
def readFraction? : List Char → Option (List Char × List Char)
  | '.' :: s =>
    match s.takeWhile Char.isDigit with
    | [] => none
    | digits => some (digits, s.dropWhile Char.isDigit)
  | s => some ([], s)

/-- The exponent at the end of a numeral; 0 if it has none. -/
def readExponent? : List Char → Option Int
  | [] => some 0
  | 'e' :: s | 'E' :: s => Radix.readInt? s
  | _ => none

/-- The decimal of a numeral without sign. -/
def readUnsigned? (s : List Char) : Option Decimal := do
  let whole := s.takeWhile Char.isDigit
  let (fraction, rest) ← readFraction? (s.dropWhile Char.isDigit)
  let exponent ← readExponent? rest
  if whole.isEmpty then none
  else
    let coefficient ← Radix.read? 10 (whole ++ fraction)
    some ⟨coefficient, exponent - fraction.length⟩

/-- The sign and the decimal of a numeral. -/
def read? : List Char → Option (Bool × Decimal)
  | '-' :: s => (readUnsigned? s).map (true, ·)
  | s => (readUnsigned? s).map (false, ·)

end Numeral

/-! ### The text of a datum -/

namespace Binary

variable {f : Format}

def unsignedText (b : Binary f) : List Char :=
  if b.isInfinite then "inf".toList
  else Numeral.write (Decimal.shortest f b.code)

def text (b : Binary f) : List Char :=
  if b.isNaN then "NaN".toList
  else if b.negative then '-' :: b.unsignedText
  else b.unsignedText

end Binary

end ConstFold
