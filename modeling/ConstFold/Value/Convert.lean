import ConstFold.Binary.Round
import ConstFold.Value.Basic

/-!
# Comparing and converting constants

Constants of the same kind are compared by the numbers they denote: integers as signed numbers, or
on request as unsigned ones, floats by the order of floating-point data, addresses by their number.
Conditions and memory have no order, and constants of different kinds are not compared.

A numeric constant is converted to a numeric kind. Between integers the low bits are kept, or the
sign is extended; the other conversions are those of floating-point data. A constant is converted to
its own kind without change, NaNs included.

## Main definitions

* `compareWords`: signed or unsigned order of words.
* `Value.compare`: the outcome of comparing two constants.
* `widen`, `narrow`: between the two widths of integers.
* `Value.convert`: to a kind.
-/

namespace ConstFold

/-! ### Comparing -/

/-- The outcome of comparing two words, read as signed or as unsigned numbers. -/
def compareWords {w : Nat} (unsigned : Bool) (a b : BitVec w) : Condition :=
  if unsigned then .ofOrdering (compare a.toNat b.toNat)
  else .ofOrdering (compare a.toInt b.toInt)

/-- The outcome of comparing two constants. Only integers heed `unsigned`. -/
protected def Value.compare (a b : Value) (unsigned : Bool) : Except KindError Condition :=
  match a, b with
  | .int32 x, .int32 y => .ok (compareWords unsigned x y)
  | .int64 x, .int64 y => .ok (compareWords unsigned x y)
  | .float32 x, .float32 y => .ok (x.compare y)
  | .float64 x, .float64 y => .ok (x.compare y)
  | .addr x, .addr y => .ok (.ofOrdering (compare x y))
  | a, b =>
    if a.kind = b.kind then .error (.notComparable a.kind)
    else .error (.kindMismatch a.kind b.kind)

/-! ### Converting

There is one table for each numeric kind of the source. -/

/-- The 64-bit integer of the same value. -/
def widen (v : BitVec 32) : BitVec 64 :=
  v.signExtend 64

/-- The low 32 bits of a 64-bit integer. -/
def narrow (v : BitVec 64) : BitVec 32 :=
  v.setWidth 32

namespace Value

def convertInt32 (v : BitVec 32) : Kind → Except KindError Value
  | .int32 => .ok (int32 v)
  | .int64 => .ok (int64 (widen v))
  | .float32 => .ok (float32 (.ofWord _ v))
  | .float64 => .ok (float64 (.ofWord _ v))
  | k => .error (.notNumeric k)

def convertInt64 (v : BitVec 64) : Kind → Except KindError Value
  | .int32 => .ok (int32 (narrow v))
  | .int64 => .ok (int64 v)
  | .float32 => .ok (float32 (.ofWord _ v))
  | .float64 => .ok (float64 (.ofWord _ v))
  | k => .error (.notNumeric k)

def convertFloat32 (v : Binary .binary32) : Kind → Except KindError Value
  | .int32 => .ok (int32 (v.toWord 32))
  | .int64 => .ok (int64 (v.toWord 64))
  | .float32 => .ok (float32 v)
  | .float64 => .ok (float64 (v.convert _))
  | k => .error (.notNumeric k)

def convertFloat64 (v : Binary .binary64) : Kind → Except KindError Value
  | .int32 => .ok (int32 (v.toWord 32))
  | .int64 => .ok (int64 (v.toWord 64))
  | .float32 => .ok (float32 (v.convert _))
  | .float64 => .ok (float64 v)
  | k => .error (.notNumeric k)

/-- A numeric constant as a constant of another numeric kind. If neither kind is numeric, it is the
kind of the constant that is reported. -/
def convert : Value → Kind → Except KindError Value
  | int32 v, dest => convertInt32 v dest
  | int64 v, dest => convertInt64 v dest
  | float32 v, dest => convertFloat32 v dest
  | float64 v, dest => convertFloat64 v dest
  | v, _ => .error (.notNumeric v.kind)

end Value

end ConstFold
