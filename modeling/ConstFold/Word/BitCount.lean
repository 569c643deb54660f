import ConstFold.Natural

/-!
# Bits and bytes

Scans over the bits of a 32-bit word, as instruction selection and strength reduction use them, and
the bytes of a number of any width.

## Main definitions

* `Word.leadingZeros`, `Word.leastSigBit?`, `Word.isPowerOfTwo`.
* `Word.isOneByteSigned`: whether the word is the sign extension of its low byte.
* `littleEndian`: the bytes of a number, least significant first.
-/

namespace ConstFold

namespace Word

/-- The zero bits of a word among its lowest `count` bits, counted from the highest of them down to
the first set bit. -/
def leadingZerosBelow (n : BitVec 32) : Nat → Nat
  | 0 => 0
  | count + 1 => if n.getLsbD count then 0 else leadingZerosBelow n count + 1

/-- The number of zero bits above the highest set bit; 32 for zero. -/
def leadingZeros (n : BitVec 32) : Nat :=
  leadingZerosBelow n 32

/-- The index of the lowest set bit, if a bit is set. -/
def leastSigBit? (n : BitVec 32) : Option Nat :=
  (List.range 32).find? fun i => n.getLsbD i

/-- Whether exactly one bit is set. -/
def isPowerOfTwo (n : BitVec 32) : Bool :=
  (List.range 32).countP (fun i => n.getLsbD i) == 1

/-- Whether the 25 upper bits agree, so that the word is the sign extension of its low byte. -/
def isOneByteSigned (n : BitVec 32) : Bool :=
  let high := n >>> 7
  high == 0#32 || high == 0x01ffffff#32

end Word

/-! ### Bytes -/

/-- The `count` low bytes of a number, least significant first. -/
def littleEndian : Nat → Nat → List (BitVec 8)
  | 0, _ => []
  | count + 1, n => BitVec.ofNat 8 n :: littleEndian count (n / 256)

@[simp]
theorem length_littleEndian (count n : Nat) : (littleEndian count n).length = count := by
  induction count generalizing n with
  | zero => rfl
  | succ count ih => simp [littleEndian, ih]

/-- Numbers that fit are told apart by their bytes. -/
theorem littleEndian_injective {count m n : Nat} (hm : m < 256 ^ count) (hn : n < 256 ^ count)
    (h : littleEndian count m = littleEndian count n) : m = n := by
  induction count generalizing m n with
  | zero =>
    rw [Nat.pow_zero] at hm hn
    omega
  | succ count ih =>
    rw [Nat.pow_succ] at hm hn
    obtain ⟨hlow, hhigh⟩ := List.cons.inj h
    have hlow := congrArg BitVec.toNat hlow
    simp only [BitVec.toNat_ofNat] at hlow
    have hhigh := ih (Nat.div_lt_of_lt_mul (by omega)) (Nat.div_lt_of_lt_mul (by omega)) hhigh
    omega

end ConstFold
