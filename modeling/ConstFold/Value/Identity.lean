import ConstFold.Value.Basic
import ConstFold.Word.BitCount

/-!
# Identity of constants

Two constants are identical if they have the same kind and the same payload bits. A NaN is
identical to itself, and the two float zeros are not identical, which tells identity from numeric
equality. Identity is the equality of constants as keys, so it comes with a byte string that is the
same for identical constants only.

## Main definitions

* `Value.eqBits`: identity, the `BEq` of constants.
* `Value.eqAs`: identity of constants of the kind that the caller tracks.
* `Value.hashBytes`: what a hash of a constant is computed from.

## Main results

* `Value.eqBits_iff_eq`: identity is equality of constants.
-/

namespace ConstFold

namespace Value

/-- Whether two constants have the same kind and the same payload bits. -/
def eqBits : Value → Value → Bool
  | int32 a, int32 b => a == b
  | int64 a, int64 b => a == b
  | float32 a, float32 b => a.bits == b.bits
  | float64 a, float64 b => a.bits == b.bits
  | addr a, addr b => a.raw == b.raw
  | cond a, cond b => a == b
  | memory _, memory _ => true
  | _, _ => false

private theorem binary_eq_of_bits {f : Format} {a b : Binary f} (h : a.bits = b.bits) : a = b := by
  cases a
  cases b
  exact congrArg Binary.mk h

private theorem addr_eq_of_raw {a b : Addr} (h : a.raw = b.raw) : a = b := by
  cases a
  cases b
  exact congrArg Addr.mk h

@[simp]
theorem eqBits_self (v : Value) : v.eqBits v = true := by
  cases v <;> simp [eqBits]

theorem eqBits_iff_eq {a b : Value} : a.eqBits b = true ↔ a = b := by
  refine ⟨fun h => ?_, fun h => h ▸ eqBits_self a⟩
  cases a <;> cases b <;> simp only [eqBits, beq_iff_eq, Bool.false_eq_true] at h
  case memory.memory a b =>
    cases a
    cases b
    rfl
  case float32.float32 => rw [binary_eq_of_bits h]
  case float64.float64 => rw [binary_eq_of_bits h]
  case addr.addr => rw [addr_eq_of_raw h]
  all_goals rw [h]

/-- Constants are compared as keys by identity. -/
instance : BEq Value where
  beq := eqBits

instance : LawfulBEq Value where
  eq_of_beq h := eqBits_iff_eq.mp h
  rfl := eqBits_self _

/-- Identity of two constants of the kind that the caller tracks, the first being checked first;
true for a kind without payload. -/
def eqAs (k : Kind) (a b : Value) : Except Misuse Bool :=
  if k.hasPayload then do
    a.checkKind k
    b.checkKind k
    return a.eqBits b
  else return true

/-! ### Hashing -/

def payloadBytes : Value → List (BitVec 8)
  | int32 v => littleEndian 4 v.toNat
  | int64 v => littleEndian 8 v.toNat
  | float32 v => littleEndian 4 v.bits.toNat
  | float64 v => littleEndian 8 v.bits.toNat
  | addr a => littleEndian 8 a.raw.toNat
  | cond c => [c.bits]
  | memory _ => []

/-- The bytes that a hash is computed from: the kind, then the payload. -/
def hashBytes (v : Value) : List (BitVec 8) :=
  BitVec.ofNat 8 v.kind.ordinal :: v.payloadBytes

instance : Hashable Value where
  hash v := v.hashBytes.foldl (fun h b => mixHash h (hash b.toNat)) 7

end Value

end ConstFold
