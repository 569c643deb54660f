import ConstFold.Proofs.Word.BitCount
import ConstFold.Proofs.Word.Range
import ConstFold.Value.Immediate

/-!
# Immediate operands are what can be recovered

A field of an instruction is extended when the instruction is executed, so a constant fits a field
iff some content of the field is extended to it. Yet fields are filled by a look at the range of the
integer. The two come to the same because extension keeps the number of a content, and every number
in the range of a field is that of a content.

So there is one content for a constant at most, and two fields that both have room for a constant
agree on its number.

## Main definitions

* `Value.IsField` — contents of a field are recovered by extension

## Main results

* `isField_unsigned`, `isField_signed` — the fields of all widths
* `unsignedField?_of_le`, `isSome_halves_iff` — fields that have room for the same constant
* `immediates_recovered` — all fields of a constant
-/

namespace ConstFold

namespace Value

variable {w : ℕ} {v : Value} {i : BitVec 32}

/-- The contents of a field are extended by `extend` when they are used: a content is that of a
constant iff the constant is the integer to which the content is extended. -/
structure IsField (field : Value → Option (BitVec w)) (extend : BitVec w → BitVec 32) : Prop where
  eq_some_iff : ∀ v k, field v = some k ↔ ∃ i, v = int32 i ∧ extend k = i
  /-- No other content is extended to the integer. -/
  unique : ∀ i k k', extend k = i → extend k' = i → k' = k

/-! ### Ranges of integers -/

theorem unsignedField?_eq_some_iff {k : BitVec w} :
    unsignedField? w i = some k ↔ (k.toNat : ℤ) = i.toInt := by
  rw [unsignedField?, Word.ofInt_unsigned_eq_some_iff]

theorem signedField?_eq_some_iff {k : BitVec w} :
    signedField? w i = some k ↔ k.toInt = i.toInt := by
  rw [signedField?, Word.ofInt_signed_eq_some_iff]

theorem int32?_eq_some_iff : v.int32? = some i ↔ v = int32 i := by
  cases v <;> simp [int32?]

/-! ### Fields -/

/-- To fill a field with integers is enough: constants of other kinds fit no field, and are no
integer that a content is extended to. -/
theorem isField_bind {fill : BitVec 32 → Option (BitVec w)} {extend : BitVec w → BitVec 32}
    (h : ∀ i k, fill i = some k ↔ extend k = i) : IsField (fun v => v.int32?.bind fill) extend where
  eq_some_iff v k := by
    rw [Option.bind_eq_some_iff]
    exact exists_congr fun i => and_congr int32?_eq_some_iff (h i k)
  unique i k k' hk hk' :=
    Option.some.inj (((h i k').mpr hk').symm.trans ((h i k).mpr hk))

/-- **Unsigned fields recover with zeros in front.** -/
theorem isField_unsigned (hw : w < 32) :
    IsField (fun v => v.int32?.bind (unsignedField? w)) (BitVec.zeroExtend 32) :=
  isField_bind fun i k => by rw [unsignedField?_eq_some_iff, Word.zeroExtend_eq_iff hw]

/-- **Signed fields recover with the sign in front.** -/
theorem isField_signed (hw : w ≤ 32) :
    IsField (fun v => v.int32?.bind (signedField? w)) (BitVec.signExtend 32) :=
  isField_bind fun i k => by rw [signedField?_eq_some_iff, Word.signExtend_eq_iff hw]

/-- The whole word is recovered as it is. -/
theorem isField_unsignedWord? : IsField unsignedWord? id where
  eq_some_iff v k := by
    rw [unsignedWord?, int32?_eq_some_iff]
    simp
  unique i k k' hk hk' := hk'.trans hk.symm

/-! ### Fields of one constant -/

/-- A wider unsigned field has the same content, with zeros in front. -/
theorem unsignedField?_of_le {w' : ℕ} (hw : w ≤ w') {k : BitVec w}
    (h : unsignedField? w i = some k) :
    unsignedField? w' i = some (k.setWidth w') ∧ (k.setWidth w').toNat = k.toNat := by
  have hlt : k.toNat < 2 ^ w' := Nat.lt_of_lt_of_le k.isLt (Nat.pow_le_pow_right Nat.two_pos hw)
  have hwide : (k.setWidth w').toNat = k.toNat := by
    rw [BitVec.toNat_setWidth, Nat.mod_eq_of_lt hlt]
  refine ⟨unsignedField?_eq_some_iff.mpr ?_, hwide⟩
  rw [hwide, unsignedField?_eq_some_iff.mp h]

theorem exists_unsignedHalf?_of_unsignedByte? {k : BitVec 8} (h : v.unsignedByte? = some k) :
    ∃ k', v.unsignedHalf? = some k' ∧ k'.toNat = k.toNat := by
  obtain ⟨i, hi, hk⟩ := Option.bind_eq_some_iff.mp h
  have hle : 8 ≤ 16 := by decide
  obtain ⟨hk', hnum⟩ := unsignedField?_of_le hle hk
  exact ⟨_, Option.bind_eq_some_iff.mpr ⟨i, hi, hk'⟩, hnum⟩

/-- Halfwords of either kind for one constant have its number. -/
theorem toInt_eq_of_signedHalf?_of_unsignedHalf? {k k' : BitVec 16} (h : v.signedHalf? = some k)
    (h' : v.unsignedHalf? = some k') : k.toInt = k'.toNat := by
  obtain ⟨i, hi, hk⟩ := Option.bind_eq_some_iff.mp h
  obtain ⟨i', hi', hk'⟩ := Option.bind_eq_some_iff.mp h'
  obtain rfl := Option.some.inj (hi.symm.trans hi')
  rw [signedField?_eq_some_iff.mp hk, unsignedField?_eq_some_iff.mp hk']

theorem isSome_unsignedHalf?_iff :
    (int32 i).unsignedHalf?.isSome = true ↔ 0 ≤ i.toInt ∧ i.toInt ≤ 65535 :=
  Option.isSome_ite

theorem isSome_signedHalf?_iff :
    (int32 i).signedHalf?.isSome = true ↔ -32768 ≤ i.toInt ∧ i.toInt ≤ 32767 :=
  Option.isSome_ite

/-- The integers for which halfwords of both kinds have room are those from zero up to the greatest
signed one. -/
theorem isSome_halves_iff :
    (int32 i).signedHalf?.isSome = true ∧ (int32 i).unsignedHalf?.isSome = true ↔
      0 ≤ i.toInt ∧ i.toInt ≤ 32767 := by
  rw [isSome_signedHalf?_iff, isSome_unsignedHalf?_iff]
  omega

/-- **Immediate operands are what can be recovered.** Each field has a content for a constant iff
the constant is an integer that this content is extended to, and it is the only such content. The
test for one signed byte asks the same of the low byte of an integer, and is a range. What an
unsigned byte has room for has the same number in an unsigned halfword; and an integer has the same
number in halfwords of both kinds, of which both have room from zero to the greatest signed one. -/
theorem immediates_recovered :
    IsField unsignedByte? (BitVec.zeroExtend 32) ∧
    IsField unsignedHalf? (BitVec.zeroExtend 32) ∧
    IsField signedHalf? (BitVec.signExtend 32) ∧
    IsField unsignedWord? id ∧
    (∀ i : BitVec 32, ∃ n, (int32 i).unsignedWord? = some n ∧
      (Word.isOneByteSigned n = true ↔ i = (i.setWidth 8).signExtend 32) ∧
      (Word.isOneByteSigned n = true ↔ -128 ≤ i.toInt ∧ i.toInt ≤ 127)) ∧
    (∀ v k, unsignedByte? v = some k → ∃ k', v.unsignedHalf? = some k' ∧ k'.toNat = k.toNat) ∧
    (∀ v k k', signedHalf? v = some k → unsignedHalf? v = some k' → k.toInt = k'.toNat) ∧
    ∀ i : BitVec 32, (int32 i).signedHalf?.isSome = true ∧ (int32 i).unsignedHalf?.isSome = true ↔
      0 ≤ i.toInt ∧ i.toInt ≤ 32767 := by
  refine ⟨isField_unsigned (by decide), isField_unsigned (by decide), isField_signed (by decide),
    isField_unsignedWord?, fun i => ?_, ?_, ?_, fun i => isSome_halves_iff⟩
  · exact ⟨i, rfl, Word.isOneByteSigned_iff_signExtend, Word.isOneByteSigned_iff⟩
  · exact fun v k => exists_unsignedHalf?_of_unsignedByte?
  · exact fun v k k' => toInt_eq_of_signedHalf?_of_unsignedHalf?

/-- The greatest byte has its number in a halfword; the least signed halfword is recovered, and the
integer below it is no extension of a halfword. -/
theorem immediates_recovered_ends :
    (int32 0x000000ff#32).unsignedByte? = some 0xff#8 ∧
      (∃ k', (int32 0x000000ff#32).unsignedHalf? = some k' ∧ k'.toNat = 255) ∧
      (int32 0x000000ff#32).signedHalf? = some 0x00ff#16 ∧
      (int32 0xffff8000#32).signedHalf? = some 0x8000#16 ∧
      ∀ k : BitVec 16, k.signExtend 32 ≠ 0xffff7fff#32 := by
  obtain ⟨hbyte, -, hsigned, -, -, hwider, -, -⟩ := immediates_recovered
  have hff : (int32 0x000000ff#32).unsignedByte? = some 0xff#8 :=
    (hbyte.eq_some_iff _ _).mpr ⟨_, rfl, by decide⟩
  refine ⟨hff, hwider _ _ hff, ?_, ?_, ?_⟩
  · exact (hsigned.eq_some_iff _ _).mpr ⟨_, rfl, by decide⟩
  · exact (hsigned.eq_some_iff _ _).mpr ⟨_, rfl, by decide⟩
  · intro k hk
    exact nomatch (hsigned.eq_some_iff _ _).mpr ⟨_, rfl, hk⟩

end Value

end ConstFold
