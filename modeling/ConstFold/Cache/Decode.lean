import ConstFold.Binary.Round
import ConstFold.Cache.Encode
import ConstFold.Condition.Basic
import ConstFold.Condition.Mask.Text
import ConstFold.Frame
import ConstFold.Value.Basic

/-!
# Reading from the cache

Reading is strict: a tree that is not of the form that is asked for has no value, and no number is
wrapped, truncated or saturated to fit an integer. Only floats are lenient and take every number,
rounding it.

## Main definitions

* `Cache.decodeKind?`, `Cache.decodeTypeKind?`, `Cache.decodeCondition?`, `Cache.decodeThreeWay?`,
  `Cache.decodeMask?`, `Cache.decodeAddr?`, `Cache.decodeMemory?`.
* `Cache.decodeValue?`.

## Implementation notes

An integer of 64 bits, signed or unsigned, is rounded to a float at once. The format holds no
larger integers: such a numeral is a double float already, which is then converted.
-/

namespace ConstFold

namespace Cache

def decodeKind? (t : Tree) : Option Kind :=
  t.tag?.bind Kind.ofTag?

def decodeTypeKind? (t : Tree) : Option TypeKind :=
  t.tag?.bind TypeKind.ofTag?

def decodeCondition? (t : Tree) : Option Condition :=
  t.tag?.bind Condition.ofTag?

def decodeThreeWay? (t : Tree) : Option ThreeWay :=
  t.tag?.bind ThreeWay.ofTag?

/-- The mask of a tree, which has to be a string. -/
def decodeMask? : Tree → Option Mask
  | .str s => Mask.ofText? s
  | _ => none

def decodeMemory? (t : Tree) : Option Memory :=
  match t.tag? with
  | some tag => if tag = Memory.constant.tag then some .constant else none
  | none => none

/-- The signed word of an integer tree in its range. -/
def decodeSigned? (w : Nat) : Tree → Option (BitVec w)
  | .int n =>
    if (BitVec.intMin w).toInt ≤ n ∧ n ≤ (BitVec.intMax w).toInt then some (BitVec.ofInt w n)
    else none
  | _ => none

/-- The unsigned word of an integer tree in its range. -/
def decodeUnsigned? (w : Nat) : Tree → Option (BitVec w)
  | .int n => if 0 ≤ n ∧ n ≤ (BitVec.allOnes w).toNat then some (BitVec.ofInt w n) else none
  | _ => none

def decodeAddr? (t : Tree) : Option Addr :=
  (decodeUnsigned? 64 t).map Addr.mk

/-- The double float of an integer too large for 64 bits, converted to a format. -/
def decodeLargeInt (f : Format) (n : Int) : Binary f :=
  (Binary.ofInt .binary64 n).convert f

def decodeBinary? (f : Format) : Tree → Option (Binary f)
  | .int n =>
    if (BitVec.intMin 64).toInt ≤ n ∧ n ≤ (BitVec.allOnes 64).toNat then some (.ofInt f n)
    else some (decodeLargeInt f n)
  | .real r => some (r.convert f)
  | _ => none

def decodePayload? (content : Tree) : Kind → Option Value
  | .int32 => (decodeSigned? 32 content).map .int32
  | .int64 => (decodeSigned? 64 content).map .int64
  | .float32 => (decodeBinary? _ content).map .float32
  | .float64 => (decodeBinary? _ content).map .float64
  | .addr => (decodeAddr? content).map .addr
  | .cond => (decodeCondition? content).map .cond
  | .memory => (decodeMemory? content).map .memory
  | .void | .tuple => none

def decodeValue? : Tree → Option Value
  | .obj [(tag, content)] => (Kind.ofTag? tag).bind (decodePayload? content)
  | _ => none

end Cache

end ConstFold
