import ConstFold.Binary.Round

/-!
# Decimals

A decimal is a natural coefficient with a power of ten. It denotes an exact number, so it can be
rounded to a floating-point format without error before the one rounding.

The decimal that stands for a finite datum in text has the fewest digits that round back to the
datum, and among those it is the nearest to the datum. A magnitude of `m` quanta is exactly
`m * 5 ^ q` units of `10 ^ -q`, where `q` is the quantum exponent. For 1, 2, … digits the two
neighbours of this number on the grid of that many digits are tried; the first grid with a hit wins.
Nothing is lost by trying only the neighbours: the numbers that round to the datum have no gaps, so
if any point of a grid rounds to the datum, one of the two neighbours does.

## Main definitions

* `Decimal`: coefficient and exponent.
* `Decimal.round`: the code of the nearest magnitude of a format.
* `Decimal.normalize`: the same number without trailing zeros in the coefficient.
* `Decimal.neighbour?`: the better one of the two neighbours on a grid, if one rounds back.
* `Decimal.shortest`: the shortest decimal of a code.
-/

namespace ConstFold

/-- The number `coefficient * 10 ^ exponent`. -/
structure Decimal where
  coefficient : Nat
  exponent : Int
  deriving DecidableEq

namespace Decimal

/-- The numerator of a decimal as a quotient of naturals. -/
def numerator (d : Decimal) : Nat :=
  d.coefficient * 10 ^ d.exponent.toNat

def denominator (d : Decimal) : Nat :=
  10 ^ (-d.exponent).toNat

/-- The code of the magnitude nearest to a decimal; of two equally near, the even one. -/
def round (f : Format) (d : Decimal) : Nat :=
  roundQuotient f (d.numerator * f.scale) d.denominator

/-- The datum nearest to a decimal with a sign. -/
def toBinary (f : Format) (negative : Bool) (d : Decimal) : Binary f :=
  .ofCode f negative (d.round f)

/-- The same number with the trailing zeros of the coefficient moved into the exponent. -/
def normalize (d : Decimal) : Decimal :=
  if d.coefficient ≠ 0 ∧ d.coefficient % 10 = 0 then
    normalize ⟨d.coefficient / 10, d.exponent + 1⟩
  else d
termination_by d.coefficient
decreasing_by exact Nat.div_lt_self (by omega) (by omega)

/-! ### The shortest decimal of a code -/

/-- The magnitude of a code as a decimal, without any rounding. -/
def exact (f : Format) (code : Nat) : Decimal :=
  ⟨magnitude f code * 5 ^ f.quantumExponent, -f.quantumExponent⟩

def readsBack (f : Format) (code : Nat) (d : Decimal) : Bool :=
  d.round f == code

/-- The neighbours of the magnitude of a code on the grid without the last `drop` digits are tried:
of those that round back the nearer one is taken, and of two equally near the upper one. -/
def neighbour? (f : Format) (code drop : Nat) : Option Decimal :=
  let d := exact f code
  let unit := 10 ^ drop
  let lower : Decimal := ⟨d.coefficient / unit, d.exponent + drop⟩
  let upper : Decimal := ⟨d.coefficient / unit + 1, d.exponent + drop⟩
  match readsBack f code lower, readsBack f code upper with
  | true, true => if 2 * (d.coefficient % unit) < unit then some lower else some upper
  | true, false => some lower
  | false, true => some upper
  | false, false => none

/-- The first hit on the grids that drop `drop`, `drop - 1`, …, 1 digits; without one, all digits
are needed. -/
def search (f : Format) (code : Nat) : Nat → Decimal
  | 0 => exact f code
  | drop + 1 =>
    match neighbour? f code (drop + 1) with
    | some d => d
    | none => search f code drop

/-- The shortest decimal that rounds to a code. -/
def shortest (f : Format) (code : Nat) : Decimal :=
  if magnitude f code = 0 then ⟨0, 0⟩
  else (search f code (Radix.digitCount (exact f code).coefficient - 1)).normalize

end Decimal

end ConstFold
