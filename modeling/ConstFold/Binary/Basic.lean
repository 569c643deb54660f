import ConstFold.Condition.Basic
import ConstFold.Natural

/-!
# Binary floating-point formats and their data

A format is given by the widths of its two fields. Everything else follows from them: finite data
are multiples of one *quantum*, the least positive number of the format, and the patterns that are
no finite datum start at `infinityCode`.

A datum of a format is a bit pattern. It splits into a sign bit and a *code*, the rest of the
pattern read as a number. Codes are ordered as the magnitudes they stand for, and neighbouring
codes are neighbouring magnitudes; that is what rounding and comparison rest on.

A NaN is unordered with everything. The other data are ordered by their *rank*, the code with the
sign of the datum: codes grow with magnitudes, infinity has the greatest code that is no NaN, and
the two zeros share rank 0.

## Main definitions

* `Format`: the widths of the fraction and the exponent field; `Format.binary32` and
  `Format.binary64` are the two formats of constants.
* `Format.quantumExponent`: the quantum is `2 ^ -quantumExponent`.
* `Format.infinityCode`: the pattern of infinity, without the sign bit.
* `Binary f`: a pattern of format `f`, with `Binary.negative` and `Binary.code`.
* `Binary.ofCode`: the pattern of a sign and a code.
* `magnitude`: the number a code stands for, in quanta; `Binary.quanta` is the signed number.
* `Binary.isNaN`, `Binary.isInfinite`, `Binary.isZero`, `Binary.isNegativeZero`.
* `Binary.rank`, `Binary.compare`: the order of data.

## Implementation notes

Counting in quanta keeps all arithmetic on finite data in the integers: no datum of the format
lies between two multiples of its quantum.
-/

namespace ConstFold

/-- A binary interchange format with a sign bit, an exponent field and a fraction field. -/
structure Format where
  /-- The width of the fraction field. -/
  fraction : Nat
  /-- The width of the exponent field. -/
  exponent : Nat
  fraction_pos : 0 < fraction := by decide
  one_lt_exponent : 1 < exponent := by decide
  deriving DecidableEq

namespace Format

/-- The single format: 32 bits. -/
def binary32 : Format :=
  { fraction := 23, exponent := 8 }

/-- The double format: 64 bits. -/
def binary64 : Format :=
  { fraction := 52, exponent := 11 }

/-- The width of a pattern without its sign bit. -/
def codeWidth (f : Format) : Nat :=
  f.exponent + f.fraction

def width (f : Format) : Nat :=
  f.codeWidth + 1

/-- The exponent field of numbers from 1 to 2. -/
def bias (f : Format) : Nat :=
  2 ^ (f.exponent - 1) - 1

/-- The least positive number of the format is `2 ^ -quantumExponent`. -/
def quantumExponent (f : Format) : Nat :=
  f.bias + f.fraction - 1

/-- The quanta in 1. -/
def scale (f : Format) : Nat :=
  2 ^ f.quantumExponent

/-- The exponent field of 1, with an empty fraction field. -/
def oneCode (f : Format) : Nat :=
  f.bias * 2 ^ f.fraction

/-- A full exponent field with an empty fraction field. -/
def infinityCode (f : Format) : Nat :=
  (2 ^ f.exponent - 1) * 2 ^ f.fraction

/-- The quiet NaN without further payload: a full exponent field and the top fraction bit. -/
def nanCode (f : Format) : Nat :=
  f.infinityCode + 2 ^ (f.fraction - 1)

theorem infinityCode_lt (f : Format) : f.infinityCode < 2 ^ f.codeWidth := by
  rw [infinityCode, codeWidth, Nat.pow_add]
  exact Nat.mul_lt_mul_of_pos_right
    (Nat.sub_lt (Nat.two_pow_pos _) Nat.one_pos) (Nat.two_pow_pos _)

theorem nanCode_lt (f : Format) : f.nanCode < 2 ^ f.codeWidth := by
  have hhalf : 2 ^ (f.fraction - 1) < 2 ^ f.fraction :=
    Nat.pow_lt_pow_right Nat.one_lt_two (Nat.sub_lt f.fraction_pos Nat.one_pos)
  have hall : f.infinityCode + 2 ^ f.fraction = 2 ^ f.codeWidth := by
    rw [infinityCode, codeWidth, Nat.pow_add, ← Nat.succ_mul, Nat.succ_eq_add_one,
      Nat.sub_add_cancel (Nat.two_pow_pos _)]
  rw [nanCode]
  omega

end Format

/-- The number of quanta that a code stands for. A code with an empty exponent field counts the
quanta themselves; else the fraction field has a leading 1 and the exponent field scales it. -/
def magnitude (f : Format) (code : Nat) : Nat :=
  let exponent := code / 2 ^ f.fraction
  let fraction := code % 2 ^ f.fraction
  if exponent = 0 then fraction
  else (2 ^ f.fraction + fraction) * 2 ^ (exponent - 1)

/-! ### Data -/

/-- A floating-point datum: a bit pattern of the format. -/
structure Binary (f : Format) where
  /-- The pattern. -/
  bits : BitVec f.width
  deriving DecidableEq

namespace Binary

variable {f : Format}

/-- Whether the sign bit is set. -/
def negative (b : Binary f) : Bool :=
  2 ^ f.codeWidth ≤ b.bits.toNat

/-- The pattern without its sign bit. -/
def code (b : Binary f) : Nat :=
  b.bits.toNat % 2 ^ f.codeWidth

/-- The pattern of a sign and a code. -/
def ofCode (f : Format) (negative : Bool) (code : Nat) : Binary f :=
  ⟨BitVec.ofNat f.width ((if negative then 2 ^ f.codeWidth else 0) + code % 2 ^ f.codeWidth)⟩

/-! ### Sign and code -/

theorem code_lt (b : Binary f) : b.code < 2 ^ f.codeWidth :=
  Nat.mod_lt _ (Nat.two_pow_pos _)

private theorem two_pow_width : 2 ^ f.width = 2 ^ f.codeWidth + 2 ^ f.codeWidth := by
  rw [Format.width, Nat.pow_succ, Nat.mul_two]

private theorem toNat_ofCode (s : Bool) (c : Nat) :
    (ofCode f s c).bits.toNat = (if s then 2 ^ f.codeWidth else 0) + c % 2 ^ f.codeWidth := by
  have hc : c % 2 ^ f.codeWidth < 2 ^ f.codeWidth := Nat.mod_lt _ (Nat.two_pow_pos _)
  rw [ofCode, BitVec.toNat_ofNat, two_pow_width, Nat.mod_eq_of_lt]
  split <;> omega

@[simp]
theorem code_ofCode (s : Bool) (c : Nat) : (ofCode f s c).code = c % 2 ^ f.codeWidth := by
  rw [code, toNat_ofCode]
  cases s <;> simp

@[simp]
theorem negative_ofCode (s : Bool) (c : Nat) : (ofCode f s c).negative = s := by
  have hc : c % 2 ^ f.codeWidth < 2 ^ f.codeWidth := Nat.mod_lt _ (Nat.two_pow_pos _)
  rw [negative, toNat_ofCode]
  cases s <;> simp [hc]

theorem toNat_bits (b : Binary f) :
    b.bits.toNat = (if b.negative then 2 ^ f.codeWidth else 0) + b.code := by
  have hb : b.bits.toNat < 2 ^ f.codeWidth + 2 ^ f.codeWidth := two_pow_width ▸ b.bits.isLt
  rw [code]
  by_cases hs : 2 ^ f.codeWidth ≤ b.bits.toNat
  · rw [if_pos (by simpa [negative] using hs), Nat.mod_eq_sub_mod hs, Nat.mod_eq_of_lt (by omega)]
    omega
  · rw [if_neg (by simpa [negative] using hs), Nat.mod_eq_of_lt (by omega)]
    omega

/-- A pattern is its sign and its code. -/
theorem ofCode_negative_code (b : Binary f) : ofCode f b.negative b.code = b := by
  have h : (ofCode f b.negative b.code).bits = b.bits := by
    apply BitVec.eq_of_toNat_eq
    rw [toNat_ofCode, toNat_bits b, Nat.mod_eq_of_lt b.code_lt]
  cases b
  exact congrArg Binary.mk h

theorem eq_of_negative_of_code {a b : Binary f} (hs : a.negative = b.negative)
    (hc : a.code = b.code) : a = b := by
  rw [← ofCode_negative_code a, hs, hc, ofCode_negative_code]

/-! ### Classes -/

/-- Has a full exponent field and a nonempty fraction field. -/
def isNaN (b : Binary f) : Bool :=
  f.infinityCode < b.code

def isInfinite (b : Binary f) : Bool :=
  b.code == f.infinityCode

/-- Is a number: neither infinite nor a NaN. -/
def isFinite (b : Binary f) : Bool :=
  b.code < f.infinityCode

/-- Is a zero of either sign. -/
def isZero (b : Binary f) : Bool :=
  b.code == 0

/-- Is the zero with a set sign bit. -/
def isNegativeZero (b : Binary f) : Bool :=
  b.isZero && b.negative

/-! ### Constants -/

def zero (f : Format) : Binary f :=
  ofCode f false 0

def negativeZero (f : Format) : Binary f :=
  ofCode f true 0

def one (f : Format) : Binary f :=
  ofCode f false f.oneCode

def infinity (f : Format) (negative : Bool) : Binary f :=
  ofCode f negative f.infinityCode

/-- The canonical NaN: positive, quiet, without further payload. -/
def nan (f : Format) : Binary f :=
  ofCode f false f.nanCode

/-! ### Numbers -/

/-- The datum with the other sign bit. -/
def neg (b : Binary f) : Binary f :=
  ofCode f (!b.negative) b.code

/-- The number that a finite datum stands for, in quanta. -/
def quanta (b : Binary f) : Int :=
  if b.negative then -(magnitude f b.code : Int) else magnitude f b.code

/-! ### Order -/

/-- The position of a datum that is no NaN among all of them. -/
def rank (b : Binary f) : Int :=
  if b.negative then -(b.code : Int) else b.code

protected def compare (a b : Binary f) : Condition :=
  if a.isNaN || b.isNaN then .un
  else .ofOrdering (Ord.compare a.rank b.rank)

end Binary

end ConstFold
