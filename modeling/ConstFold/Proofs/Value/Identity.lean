import ConstFold.Value.Identity
import ConstFold.Word.BitCount
import Mathlib.Data.Nat.Notation

/-!
# Identity and hashing

The payload of a constant is a pattern of bits, whatever its kind makes of them. Two constants are
identical if they agree in kind and pattern, so neither the numbers that floats stand for nor the
rules for NaNs and signed zeros play a part.

What a hash of a constant is computed from is its kind and then the bits of its payload, in as many
bytes as the kind takes. The first byte so tells how many follow. Two constants of different kinds
differ in that byte, and two of one kind have equally many bytes; hence no constant has the first
bytes of another as its own, and a hash of several constants, one after the other, is computed from
bytes that belong to no other constants.

## Main definitions

* `Value.rawBits` — the bits of a payload, read as a number
* `Kind.payloadSize` — the number of bytes of a payload

## Main results

* `eqBits_iff_rawBits` — identity is equality of kind and bits
* `payloadBytes_eq` — the bytes of a payload, for all kinds at once
* `eq_of_isPrefix_hashBytes` — bytes that begin alike belong to one constant
* `eqBits_iff_hashBytes` — identity, by the bits and by the bytes
-/

namespace ConstFold

/-- The bits that make an outcome up tell it apart. -/
theorem Condition.bits_injective {c d : Condition} (h : c.bits.toNat = d.bits.toNat) : c = d := by
  cases c <;> cases d <;> first | rfl | exact absurd h (by decide)

namespace Value

/-- The bits of a payload, read as a number; there is one region, with the number 0. -/
def rawBits : Value → ℕ
  | int32 v => v.toNat
  | int64 v => v.toNat
  | float32 b => b.bits.toNat
  | float64 b => b.bits.toNat
  | addr a => a.raw.toNat
  | cond c => c.bits.toNat
  | memory _ => 0

/-- **Two constants are identical if they have the same kind and the same bits.** -/
theorem eqBits_iff_rawBits (a b : Value) :
    a.eqBits b = true ↔ b.kind = a.kind ∧ b.rawBits = a.rawBits := by
  constructor
  · intro h
    rw [eqBits_iff_eq.mp h]
    exact ⟨rfl, rfl⟩
  · rintro ⟨hk, hbits⟩
    cases hk using cases_of_kind_eq with
    | int32 a b => exact beq_iff_eq.mpr (BitVec.eq_of_toNat_eq hbits.symm)
    | int64 a b => exact beq_iff_eq.mpr (BitVec.eq_of_toNat_eq hbits.symm)
    | float32 a b => exact beq_iff_eq.mpr (BitVec.eq_of_toNat_eq hbits.symm)
    | float64 a b => exact beq_iff_eq.mpr (BitVec.eq_of_toNat_eq hbits.symm)
    | addr a b => exact beq_iff_eq.mpr (BitVec.eq_of_toNat_eq hbits.symm)
    | cond a b => exact beq_iff_eq.mpr (Condition.bits_injective hbits.symm)
    | memory a b => rfl

end Value

/-! ### Hashing -/

namespace Kind

/-- The number of bytes that a payload of a kind takes in a hash. There is one region, so that the
kind says all. -/
def payloadSize : Kind → ℕ
  | int32 | float32 => 4
  | int64 | float64 | addr => 8
  | cond => 1
  | memory | void | tuple => 0

theorem ordinal_lt (k : Kind) : k.ordinal < 256 := by
  cases k <;> decide

/-- A byte has room for the ordinals of all kinds. -/
theorem eq_of_ordinal_byte {j k : Kind}
    (h : BitVec.ofNat 8 j.ordinal = BitVec.ofNat 8 k.ordinal) : j = k := by
  have hnat := congrArg BitVec.toNat h
  rw [BitVec.toNat_ofNat, BitVec.toNat_ofNat] at hnat
  have hj := j.ordinal_lt
  have hk := k.ordinal_lt
  exact ordinal_injective (by omega)

end Kind

namespace Value

theorem rawBits_lt (v : Value) : v.rawBits < 256 ^ v.kind.payloadSize := by
  cases v with
  | int32 v => exact v.isLt
  | int64 v => exact v.isLt
  | float32 b => exact b.bits.isLt
  | float64 b => exact b.bits.isLt
  | addr a => exact a.raw.isLt
  | cond c => exact c.bits.isLt
  | memory m => exact Nat.one_pos

/-- The bytes of a payload are those of its bits. -/
theorem payloadBytes_eq (v : Value) :
    v.payloadBytes = littleEndian v.kind.payloadSize v.rawBits := by
  cases v with
  | int32 _ | int64 _ | float32 _ | float64 _ | addr _ | memory _ => rfl
  | cond c => cases c <;> rfl

theorem length_payloadBytes (v : Value) : v.payloadBytes.length = v.kind.payloadSize := by
  rw [payloadBytes_eq, length_littleEndian]

/-- **Bytes that begin alike belong to one constant.** The first byte is the kind, and the kind
determines how many bytes follow; so constants can be hashed one after the other without a mark
between them. -/
theorem eq_of_isPrefix_hashBytes {a b : Value} (h : a.hashBytes <+: b.hashBytes) : a = b := by
  rw [hashBytes, hashBytes, List.cons_prefix_cons] at h
  obtain ⟨hfirst, hrest⟩ := h
  have hkind : a.kind = b.kind := Kind.eq_of_ordinal_byte hfirst
  -- of one kind, the payloads take equally many bytes
  have hlen : a.payloadBytes.length = b.payloadBytes.length := by
    rw [length_payloadBytes, length_payloadBytes, hkind]
  have hbytes := hrest.eq_of_length hlen
  rw [payloadBytes_eq, payloadBytes_eq, hkind] at hbytes
  have hbits : a.rawBits = b.rawBits :=
    littleEndian_injective (hkind ▸ a.rawBits_lt) b.rawBits_lt hbytes
  exact eqBits_iff_eq.mp ((eqBits_iff_rawBits a b).mpr ⟨hkind.symm, hbits.symm⟩)

theorem equivalence_eqBits : Equivalence fun a b : Value => a.eqBits b = true where
  refl := eqBits_self
  symm h := eqBits_iff_eq.mpr (eqBits_iff_eq.mp h).symm
  trans h h' := eqBits_iff_eq.mpr ((eqBits_iff_eq.mp h).trans (eqBits_iff_eq.mp h'))

/-- **Equality and hashing agree.** Identity, by which constants are compared as keys, is an
equivalence: to be of one kind with the same bits. The bytes that a hash is computed from are the
same for identical constants, and for no others does one begin with all the bytes of the other. -/
theorem eqBits_iff_hashBytes :
    (Equivalence fun a b : Value => a.eqBits b = true) ∧
    ∀ a b : Value, (a == b) = a.eqBits b ∧
      (a.eqBits b = true ↔ a.kind = b.kind ∧ a.rawBits = b.rawBits) ∧
      (a.hashBytes = b.hashBytes ↔ a.eqBits b = true) ∧
      (a.hashBytes <+: b.hashBytes ↔ a.eqBits b = true) := by
  refine ⟨equivalence_eqBits, fun a b => ⟨rfl, ?_, ?_, ?_⟩⟩
  · rw [eqBits_iff_rawBits, eq_comm (a := b.kind), eq_comm (a := b.rawBits)]
  · rw [eqBits_iff_eq]
    exact ⟨fun h => eq_of_isPrefix_hashBytes (h ▸ List.prefix_rfl), congrArg hashBytes⟩
  · rw [eqBits_iff_eq]
    exact ⟨eq_of_isPrefix_hashBytes, fun h => h ▸ List.prefix_rfl⟩

/-- Payloads of one pattern are told apart by the kind, and the zeros of a float by the last
byte. -/
example : (float32 (.zero _)).hashBytes = [3, 0, 0, 0, 0] ∧
    (float32 (.negativeZero _)).hashBytes = [3, 0, 0, 0, 0x80] ∧
    (int32 0#32).hashBytes = [1, 0, 0, 0, 0] := by
  refine ⟨?_, ?_, ?_⟩ <;> decide

end Value

end ConstFold
