import ConstFold.Value.Basic

/-!
# Immediate operands

Instructions have fields of fixed width for constant operands. A 32-bit integer fits a field if the
field, extended to 32 bits, gives the integer back. Constants of other kinds fit no field.

## Main definitions

* `Value.unsignedByte?`, `Value.unsignedHalf?`, `Value.signedHalf?`, `Value.unsignedWord?`.
* `Immediates`, `Value.immediates`: a constant in all four fields.
-/

namespace ConstFold

namespace Value

def int32? : Value → Option (BitVec 32)
  | int32 v => some v
  | _ => none

/-- The low `w` bits of a 32-bit integer that is between 0 and the greatest unsigned number of
that width. -/
def unsignedField? (w : Nat) (v : BitVec 32) : Option (BitVec w) :=
  if 0 ≤ v.toInt ∧ v.toInt ≤ (BitVec.allOnes w).toNat then some (BitVec.ofInt w v.toInt)
  else none

/-- The low `w` bits of a 32-bit integer that is between the least and the greatest signed number
of that width, both included. -/
def signedField? (w : Nat) (v : BitVec 32) : Option (BitVec w) :=
  if (BitVec.intMin w).toInt ≤ v.toInt ∧ v.toInt ≤ (BitVec.intMax w).toInt then
    some (BitVec.ofInt w v.toInt)
  else none

def unsignedByte? (v : Value) : Option (BitVec 8) :=
  v.int32?.bind (unsignedField? 8)

def unsignedHalf? (v : Value) : Option (BitVec 16) :=
  v.int32?.bind (unsignedField? 16)

def signedHalf? (v : Value) : Option (BitVec 16) :=
  v.int32?.bind (signedField? 16)

/-- The constant as an unsigned word of the same bits; every 32-bit integer fits. -/
def unsignedWord? (v : Value) : Option (BitVec 32) :=
  v.int32?

end Value

/-- A constant in the four immediate fields, as far as it fits. -/
structure Immediates where
  unsignedByte : Option (BitVec 8)
  unsignedHalf : Option (BitVec 16)
  signedHalf : Option (BitVec 16)
  unsignedWord : Option (BitVec 32)
  deriving DecidableEq

def Value.immediates (v : Value) : Immediates where
  unsignedByte := v.unsignedByte?
  unsignedHalf := v.unsignedHalf?
  signedHalf := v.signedHalf?
  unsignedWord := v.unsignedWord?

end ConstFold
