import ConstFold.Binary.Basic

/-!
# Operations that round

All rounding goes through one function: `roundQuotient` takes a number of quanta, given as a
quotient of naturals, to the code of the nearest magnitude of the format. Between two magnitudes
equally near it takes the one with the even code, which is the one with the even significand.

Integers are rounded to the nearest datum. A datum is rounded toward zero to an integer word, and
what the word cannot hold saturates at its least or greatest value. Between formats the number is
rounded to nearest, with an overflow to infinity; the sign is kept, and a NaN becomes the canonical
NaN of the destination.

The sum and the product of two data are their exact sum and product, rounded once. The rest are the
rules for data that are no nonzero numbers: a NaN operand, opposite infinities under addition, and
an infinity times a zero give the canonical NaN; an exact sum of zero is positive unless both
operands are negative; a product is negative if exactly one operand is.

## Main definitions

* `roundQuotient`: the code nearest to a quotient of quanta; past the finite numbers, infinity.
* `Binary.ofInt`, `Binary.ofWord`: from integers and signed words.
* `Binary.toWord`: to signed words.
* `Binary.convert`: to another format.
* `Binary.add`, `Binary.mul`.

## Implementation notes

A code with exponent field `e` above 1 counts in units of `2 ^ (e - 1)` quanta. The unit is fixed
by the whole part of the quotient, the quotient is rounded in that unit, and the rounded count is
added to the code at which the unit begins; a count that reaches the next power of two is then the
next exponent with an empty fraction, without a case of its own. A quotient at or past the midpoint
between the greatest finite number and the power of two above it reaches `infinityCode`.
-/

namespace ConstFold

/-- The code whose magnitude is nearest to `num / den` quanta; of two equally near, the even one.
From the midpoint above the greatest finite magnitude on it is the code of infinity. -/
def roundQuotient (f : Format) (num den : Nat) : Nat :=
  let shift := (num / den).log2 - f.fraction
  let count := roundDiv num (den * 2 ^ shift)
  min (shift * 2 ^ f.fraction + count) f.infinityCode

theorem roundQuotient_le (f : Format) (num den : Nat) :
    roundQuotient f num den ≤ f.infinityCode :=
  Nat.min_le_right ..

namespace Binary

/-! ### Conversions -/

/-- The datum nearest to an integer. -/
def ofInt (f : Format) (n : Int) : Binary f :=
  ofCode f (n < 0) (roundQuotient f (n.natAbs * f.scale) 1)

def ofWord (f : Format) {w : Nat} (v : BitVec w) : Binary f :=
  ofInt f v.toInt

variable {f : Format}

/-- The number a finite datum stands for, rounded toward zero. -/
def truncate (b : Binary f) : Int :=
  b.quanta.tdiv f.scale

/-- The signed word of width `w` nearest to an integer. -/
def saturate (w : Nat) (n : Int) : BitVec w :=
  BitVec.ofInt w (max (BitVec.intMin w).toInt (min (BitVec.intMax w).toInt n))

/-- The signed word nearest to a datum rounded toward zero; 0 for a NaN. -/
def toWord (w : Nat) (b : Binary f) : BitVec w :=
  if b.isNaN then 0#w
  else if b.isInfinite then
    if b.negative then BitVec.intMin w else BitVec.intMax w
  else saturate w b.truncate

/-- The datum of another format that is nearest to a datum. -/
def convert (g : Format) (b : Binary f) : Binary g :=
  if b.isNaN then nan g
  else if b.isInfinite then infinity g b.negative
  else ofCode g b.negative (roundQuotient g (magnitude f b.code * g.scale) f.scale)

/-! ### Addition and multiplication -/

def addFinite (a b : Binary f) : Binary f :=
  let sum := a.quanta + b.quanta
  let negative := if sum = 0 then a.negative && b.negative else sum < 0
  ofCode f negative (roundQuotient f sum.natAbs 1)

def add (a b : Binary f) : Binary f :=
  if a.isNaN || b.isNaN then nan f
  else if a.isInfinite then
    if b.isInfinite && a.negative != b.negative then nan f else a
  else if b.isInfinite then b
  else addFinite a b

def mul (a b : Binary f) : Binary f :=
  let negative := a.negative != b.negative
  if a.isNaN || b.isNaN then nan f
  else if a.isInfinite || b.isInfinite then
    if a.isZero || b.isZero then nan f else infinity f negative
  else
    ofCode f negative (roundQuotient f (magnitude f a.code * magnitude f b.code) f.scale)

end Binary

end ConstFold
