import ConstFold.Binary.Round
import ConstFold.Value.Basic

/-!
# Arithmetic of constants, and its laws

The two operators with identity laws, as the machine computes them: integers wrap around, floats
are rounded to nearest. Operands have the same numeric kind.

A constant can satisfy a law of addition or multiplication for *every* other operand, so that the
operation can be simplified without a look at that operand. Results have to be identical, not only
numerically equal, and that tells floats from integers:

* positive zero is no additive identity, since adding it to negative zero gives positive zero;
* no float zero annihilates a multiplication, since the sign of the product and NaNs depend on the
  other operand;
* a NaN annihilates both operations.

## Main definitions

* `ArithOp`, `ArithOp.eval?`: the operators, and their value on two constants.
* `Value.neg?`: the opposite of a constant.
* `Predicates`, `Value.predicates`: zero, infinite and NaN.
* `Laws`, `Value.laws?`: the laws that a numeric constant satisfies.
* `Value.additiveIdentity?`, `Value.nan?`: the constants that a numeric kind singles out.
-/

namespace ConstFold

/-- An operator with identity laws. -/
inductive ArithOp where
  | add
  | mul
  deriving DecidableEq

namespace ArithOp

def ofName? : String → Option ArithOp
  | "add" => some add
  | "mul" => some mul
  | _ => none

def tag : ArithOp → String
  | add => "Add"
  | mul => "Mul"

def onWords {w : Nat} : ArithOp → BitVec w → BitVec w → BitVec w
  | add, a, b => a + b
  | mul, a, b => a * b

def onBinaries {f : Format} : ArithOp → Binary f → Binary f → Binary f
  | add, a, b => a.add b
  | mul, a, b => a.mul b

/-- The operator on two constants of the same numeric kind. -/
def eval? (op : ArithOp) : Value → Value → Option Value
  | .int32 a, .int32 b => some (.int32 (op.onWords a b))
  | .int64 a, .int64 b => some (.int64 (op.onWords a b))
  | .float32 a, .float32 b => some (.float32 (op.onBinaries a b))
  | .float64 a, .float64 b => some (.float64 (op.onBinaries a b))
  | _, _ => none

end ArithOp

/-- The opposite of a numeric constant: integers wrap around, floats flip their sign bit. -/
def Value.neg? : Value → Option Value
  | .int32 v => some (.int32 (-v))
  | .int64 v => some (.int64 (-v))
  | .float32 v => some (.float32 v.neg)
  | .float64 v => some (.float64 v.neg)
  | _ => none

/-! ### Laws -/

/-- What can be asked of every constant. -/
structure Predicates where
  /-- Is 0, a float zero, null, `eq` or the constant region. -/
  isZero : Bool
  isInfinite : Bool
  isNaN : Bool
  deriving DecidableEq

/-- The laws that a constant `c` satisfies for every operand `x`. -/
structure Laws where
  /-- The sum `c + x` is `c`. -/
  additiveAnnihilator : Bool
  /-- The sum `c + x` is `x`. -/
  additiveIdentity : Bool
  /-- The product `c * x` is `c`. -/
  multiplicativeAnnihilator : Bool
  /-- The product `c * x` is `x`. -/
  multiplicativeIdentity : Bool
  /-- The product `c * x` is `-x`. -/
  multiplicativeNegator : Bool
  deriving DecidableEq

def Laws.ofWord {w : Nat} (v : BitVec w) : Laws where
  additiveAnnihilator := false
  additiveIdentity := v == 0#w
  multiplicativeAnnihilator := v == 0#w
  multiplicativeIdentity := v == 1#w
  multiplicativeNegator := v == -1#w

def Laws.ofBinary {f : Format} (v : Binary f) : Laws where
  additiveAnnihilator := v.isNaN
  additiveIdentity := v.isNegativeZero
  multiplicativeAnnihilator := v.isNaN
  multiplicativeIdentity := v == .one f
  multiplicativeNegator := v == (Binary.one f).neg

namespace Value

def isZero : Value → Bool
  | int32 v => v == 0#32
  | int64 v => v == 0#64
  | float32 v => v.isZero
  | float64 v => v.isZero
  | addr a => a.isNull
  | cond c => c == .eq
  | memory _ => true

/-- Whether a constant is a float infinity. -/
def isInfinite : Value → Bool
  | float32 v => v.isInfinite
  | float64 v => v.isInfinite
  | _ => false

/-- Whether a constant is a float NaN. -/
def isNaN : Value → Bool
  | float32 v => v.isNaN
  | float64 v => v.isNaN
  | _ => false

def predicates (v : Value) : Predicates where
  isZero := v.isZero
  isInfinite := v.isInfinite
  isNaN := v.isNaN

def laws? : Value → Option Laws
  | int32 v => some (.ofWord v)
  | int64 v => some (.ofWord v)
  | float32 v => some (.ofBinary v)
  | float64 v => some (.ofBinary v)
  | _ => none

/-- The additive identity of a numeric kind: 0, or the negative zero. -/
def additiveIdentity? : Kind → Option Value
  | .int32 => some (int32 0#32)
  | .int64 => some (int64 0#64)
  | .float32 => some (float32 (.negativeZero _))
  | .float64 => some (float64 (.negativeZero _))
  | _ => none

/-- The canonical NaN of a numeric kind; an integer kind has none, and must not be asked. -/
def nan? : Kind → Option (Except Misuse Value)
  | k@.int32 | k@.int64 => some (.error (.integerNaN k))
  | .float32 => some (.ok (float32 (.nan _)))
  | .float64 => some (.ok (float64 (.nan _)))
  | _ => none

end Value

end ConstFold
