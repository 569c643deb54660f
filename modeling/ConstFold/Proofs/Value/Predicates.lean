import ConstFold.Proofs.Value.Equality
import ConstFold.Value.Laws

/-!
# The predicates of constants in terms of comparison

Zeros, NaNs and infinities are found by a look at the bits. What they are is a matter of comparison:
a zero equals the zero of its kind, a NaN is unordered even with itself, and an infinity is above or
below all finite data of its format. The negative zero, which is the additive identity, is the one
datum that equals the zero without being it.

The test against zero of a constant is the negation of `Value.isZero`, with two exceptions. Null is
both zero and nonzero, and so is the region of memory; other addresses are neither.

## Main definitions

* `Value.IsFinite` — a finite datum of a float kind
* `Value.PredicatesAgree` — the predicates of a constant are what comparison has them be

## Main results

* `Binary.isInfinite_iff_compare` — infinities lie beyond all finite data
* `Value.isZero_iff_compare`, `Value.isNaN_iff_compare`, `Value.isInfinite_iff_compare`
* `Value.exists_zero_predicatesAgree`
-/

namespace ConstFold

theorem Addr.isNull_iff {a : Addr} : a.isNull = true ↔ a = null := by
  obtain ⟨raw⟩ := a
  simp [isNull, null]

namespace Binary

variable {f : Format} {a b : Binary f}

theorem isZero_zero (f : Format) : (zero f).isZero = true := by
  simp [isZero, zero]

theorem isFinite_zero (f : Format) : (zero f).isFinite = true := by
  simpa [isFinite, zero] using f.infinityCode_pos

/-- The negative zero is the zero that is not the positive one. -/
theorem isNegativeZero_iff_ne_zero :
    b.isNegativeZero = true ↔ b.isZero = true ∧ b ≠ zero f := by
  rw [isNegativeZero, Bool.and_eq_true]
  refine and_congr_right fun hz => ?_
  rw [isZero_iff.mp hz, negative_ofCode, zero, Ne, ofCode_zero_eq_iff, Bool.not_eq_false]

/-- What is infinite is in order with all finite data, and on one side of them. -/
theorem compare_of_isInfinite (hb : b.isInfinite = true) (ha : a.isFinite = true) :
    b.compare a = if b.negative then .lt else .gt := by
  have hord := orders_compare (isNaN_of_isInfinite hb) (isNaN_of_isFinite ha)
  rw [toExtended, if_pos hb, toExtended_of_isFinite ha] at hord
  cases hs : b.negative with
  | true =>
    rw [hs, if_pos rfl] at hord
    exact hord.eq_lt_iff.mpr (WithBot.bot_lt_coe _)
  | false =>
    rw [hs, if_neg Bool.false_ne_true] at hord
    exact hord.eq_gt_iff.mpr (WithBot.coe_lt_coe.mpr (WithTop.coe_lt_top _))

/-- What has one outcome with all finite data, being less or greater, is infinite. -/
theorem isInfinite_of_compare {c : Condition} (hun : c ≠ .un) (heq : c ≠ .eq)
    (h : ∀ a : Binary f, a.isFinite = true → b.compare a = c) : b.isInfinite = true := by
  have hnan : b.isNaN = false := by
    by_contra hnan
    have hcmp : b.compare (zero f) = .un :=
      compare_eq_un (Or.inl (Bool.eq_true_of_not_eq_false hnan))
    exact hun ((h (zero f) (isFinite_zero f)).symm.trans hcmp)
  refine (isInfinite_or_isFinite hnan).resolve_right fun hfin => ?_
  -- a finite datum would equal itself
  have hself : b.compare b = .eq := (orders_compare hnan hnan).eq_eq_iff.mpr rfl
  exact heq ((h b hfin).symm.trans hself)

/-- **An infinity is above all finite data, or below all of them**, and nothing else is. -/
theorem isInfinite_iff_compare (b : Binary f) :
    b.isInfinite = true ↔ (∀ a : Binary f, a.isFinite = true → b.compare a = .gt) ∨
      ∀ a : Binary f, a.isFinite = true → b.compare a = .lt := by
  constructor
  · intro h
    cases hs : b.negative with
    | true => exact Or.inr fun a ha => by rw [compare_of_isInfinite h ha, hs, if_pos rfl]
    | false =>
      exact Or.inl fun a ha => by rw [compare_of_isInfinite h ha, hs, if_neg Bool.false_ne_true]
  · rintro (h | h)
    · exact isInfinite_of_compare (by decide) (by decide) h
    · exact isInfinite_of_compare (by decide) (by decide) h

end Binary

namespace Value

variable {a b v z : Value}

/-- A datum of a float kind that is neither an infinity nor a NaN. -/
def IsFinite : Value → Prop
  | float32 b => b.isFinite = true
  | float64 b => b.isFinite = true
  | int32 _ | int64 _ | addr _ | cond _ | memory _ => False

theorem forall_isFinite_float32_iff {p : Value → Prop} :
    (∀ w : Value, w.kind = .float32 → w.IsFinite → p w) ↔
      ∀ a : Binary .binary32, a.isFinite = true → p (float32 a) := by
  constructor
  · intro h a ha
    exact h _ rfl ha
  · intro h w hk hw
    obtain ⟨a, rfl⟩ := exists_eq_ofPayload hk
    exact h a hw

theorem forall_isFinite_float64_iff {p : Value → Prop} :
    (∀ w : Value, w.kind = .float64 → w.IsFinite → p w) ↔
      ∀ a : Binary .binary64, a.isFinite = true → p (float64 a) := by
  constructor
  · intro h a ha
    exact h _ rfl ha
  · intro h w hk hw
    obtain ⟨a, rfl⟩ := exists_eq_ofPayload hk
    exact h a hw

/-! ### Each predicate by itself -/

/-- The kind of a constant has a zero. -/
theorem exists_zero (v : Value) : ∃ z, zero v.kind = .ok z := by
  cases v <;> exact ⟨_, rfl⟩

theorem kind_of_zero {k : Kind} (hz : zero k = .ok z) : z.kind = k := by
  cases k with
  | int32 | int64 | float32 | float64 | addr | cond | memory =>
    rw [← Except.ok.inj hz]
    rfl
  | void | tuple => nomatch hz

theorem isZero_iff_compare (u : Bool) (hz : zero v.kind = .ok z)
    (hc : v.kind.isComparable = true) : v.isZero = true ↔ v.compare z u = .ok .eq := by
  rw [compare_eq_ok_eq_iff_of_kind_eq u (kind_of_zero hz) hc, exists_isFloatZero_iff,
    exists_isFloatZero_iff]
  cases v with
  | int32 v =>
    obtain rfl := Except.ok.inj hz
    simp [isZero, isNaN, kind, Kind.isFloating]
  | int64 v =>
    obtain rfl := Except.ok.inj hz
    simp [isZero, isNaN, kind, Kind.isFloating]
  | float32 b =>
    obtain rfl := Except.ok.inj hz
    simp only [isZero, isNaN, kind, Kind.isFloating, float32.injEq, Binary.isZero_zero, true_and,
      and_true]
    exact (or_iff_right_of_imp fun h => h.1 ▸ Binary.isZero_zero _).symm
  | float64 b =>
    obtain rfl := Except.ok.inj hz
    simp only [isZero, isNaN, kind, Kind.isFloating, float64.injEq, Binary.isZero_zero, true_and,
      and_true]
    exact (or_iff_right_of_imp fun h => h.1 ▸ Binary.isZero_zero _).symm
  | addr a =>
    obtain rfl := Except.ok.inj hz
    simp [isZero, isNaN, kind, Kind.isFloating, Addr.isNull_iff]
  | cond _ | memory _ => exact absurd hc Bool.false_ne_true

theorem compare_eq_ok_un_iff (u : Bool) (hk : b.kind = a.kind) (hc : a.kind.isComparable = true) :
    a.compare b u = .ok .un ↔ a.isNaN = true ∨ b.isNaN = true := by
  refine ⟨fun h => ?_, compare_eq_un u hk⟩
  by_contra hnan
  rw [not_or, Bool.not_eq_true, Bool.not_eq_true] at hnan
  obtain ⟨c, hcmp, hord⟩ := exists_orders u hk hc hnan.1 hnan.2
  exact hord.ne_un (Except.ok.inj (hcmp.symm.trans h))

theorem isNaN_iff_compare (u : Bool) (hc : v.kind.isComparable = true) :
    v.isNaN = true ↔ v.compare v u = .ok .un := by
  rw [compare_eq_ok_un_iff u rfl hc, or_self_iff]

theorem isInfinite_iff_compare (u : Bool) (v : Value) :
    v.isInfinite = true ↔ v.kind.isFloating = true ∧
      ((∀ w : Value, w.kind = v.kind → w.IsFinite → v.compare w u = .ok .gt) ∨
        ∀ w : Value, w.kind = v.kind → w.IsFinite → v.compare w u = .ok .lt) := by
  cases v with
  | float32 b =>
    have hkind : (float32 b).kind = .float32 := rfl
    have hcmp (a : Binary .binary32) : (float32 b).compare (float32 a) u = .ok (b.compare a) := rfl
    simp only [hkind, forall_isFinite_float32_iff, hcmp, Except.ok.injEq]
    exact b.isInfinite_iff_compare.trans (and_iff_right rfl).symm
  | float64 b =>
    have hkind : (float64 b).kind = .float64 := rfl
    have hcmp (a : Binary .binary64) : (float64 b).compare (float64 a) u = .ok (b.compare a) := rfl
    simp only [hkind, forall_isFinite_float64_iff, hcmp, Except.ok.injEq]
    exact b.isInfinite_iff_compare.trans (and_iff_right rfl).symm
  | int32 _ | int64 _ | addr _ | cond _ | memory _ => simp [isInfinite, kind, Kind.isFloating]

/-- The additive identity of a float is the zero that is not the zero of the kind. -/
theorem additiveIdentity_iff (hz : zero v.kind = .ok z) (hk : v.kind.isFloating = true) :
    ∃ laws, v.laws? = some laws ∧
      (laws.additiveIdentity = true ↔ v.isZero = true ∧ v.eqBits z = false) := by
  rw [← Bool.not_eq_true (v.eqBits z), eqBits_iff_eq]
  cases v with
  | float32 b =>
    obtain rfl := Except.ok.inj hz
    refine ⟨_, rfl, ?_⟩
    rw [float32.injEq]
    exact Binary.isNegativeZero_iff_ne_zero
  | float64 b =>
    obtain rfl := Except.ok.inj hz
    refine ⟨_, rfl, ?_⟩
    rw [float64.injEq]
    exact Binary.isNegativeZero_iff_ne_zero
  | int32 _ | int64 _ | addr _ | cond _ | memory _ => exact absurd hk Bool.false_ne_true

/-- The test against zero is the negation of being zero, for addresses and memory it is the
same. -/
theorem isNonzero_eq (v : Value) :
    v.isNonzero = if v.kind = .addr ∨ v.kind = .memory then v.isZero else !v.isZero := by
  cases v <;> rfl

/-! ### All predicates -/

/-- The predicates of a constant `v` are what comparison has them be, `z` being the zero of its
kind. -/
structure PredicatesAgree (v z : Value) : Prop where
  /-- A zero compares equal to the zero of the kind. -/
  isZero : v.kind.isComparable = true → ∀ unsigned,
    (v.isZero = true ↔ v.compare z unsigned = .ok .eq)
  /-- A NaN is unordered with itself. -/
  isNaN : v.kind.isComparable = true → ∀ unsigned,
    (v.isNaN = true ↔ v.compare v unsigned = .ok .un)
  /-- An infinity is a float on one side of all finite data of its kind. -/
  isInfinite : ∀ unsigned, v.isInfinite = true ↔ v.kind.isFloating = true ∧
    ((∀ w : Value, w.kind = v.kind → w.IsFinite → v.compare w unsigned = .ok .gt) ∨
      ∀ w : Value, w.kind = v.kind → w.IsFinite → v.compare w unsigned = .ok .lt)
  /-- The additive identity of floats is a zero, but not the zero of the kind. -/
  additiveIdentity : v.kind.isFloating = true → ∃ laws, v.laws? = some laws ∧
    (laws.additiveIdentity = true ↔ v.isZero = true ∧ v.eqBits z = false)
  /-- Numbers and conditions are nonzero if they are not zero. -/
  isNonzero : v.kind.isNumeric = true ∨ v.kind = .cond → v.isNonzero = !v.isZero
  /-- Addresses and memory are nonzero if they are zero. -/
  isNonzero_inverted : v.kind = .addr ∨ v.kind = .memory → v.isNonzero = v.isZero

/-- **The predicates of constants agree with comparison**, and with the zeros of the kinds. -/
theorem exists_zero_predicatesAgree (v : Value) :
    ∃ z, zero v.kind = .ok z ∧ v.PredicatesAgree z := by
  obtain ⟨z, hz⟩ := exists_zero v
  refine ⟨z, hz, ?_⟩
  exact {
    isZero := fun hc u => isZero_iff_compare u hz hc
    isNaN := fun hc u => isNaN_iff_compare u hc
    isInfinite := fun u => isInfinite_iff_compare u v
    additiveIdentity := fun hk => additiveIdentity_iff hz hk
    isNonzero := by
      intro hk
      rw [isNonzero_eq, if_neg]
      rintro (h | h) <;> simp [h, Kind.isNumeric, Kind.isInteger, Kind.isFloating] at hk
    isNonzero_inverted := by
      intro hk
      rw [isNonzero_eq, if_pos hk] }

/-- The negative zero is zero and the additive identity; null is zero and nonzero. -/
theorem exists_zero_predicatesAgree_negativeZero :
    Kind.float64.isComparable = true ∧ Kind.float64.isFloating = true ∧
      (∃ z, zero .float64 = .ok z ∧ (float64 (.negativeZero _)).compare z true = .ok .eq ∧
        ∃ laws, (float64 (.negativeZero _)).laws? = some laws ∧ laws.additiveIdentity = true ∧
          (float64 (.negativeZero _)).eqBits z = false) ∧
      (float64 (.negativeZero _)).isNonzero = false ∧ (addr .null).isNonzero = true := by
  have hzero : (float64 (.negativeZero _)).isZero = true := by decide
  obtain ⟨z, hz, hagree⟩ := exists_zero_predicatesAgree (float64 (.negativeZero _))
  obtain ⟨laws, hlaws, hidentity⟩ := hagree.additiveIdentity rfl
  obtain ⟨_, _, hnull⟩ := exists_zero_predicatesAgree (addr .null)
  have hne : (float64 (.negativeZero _)).eqBits z = false := by
    rw [← Except.ok.inj hz]
    decide
  refine ⟨rfl, rfl, ⟨z, hz, (hagree.isZero rfl true).mp hzero, laws, hlaws, ?_, hne⟩, ?_, ?_⟩
  · exact hidentity.mpr ⟨hzero, hne⟩
  · rw [hagree.isNonzero (Or.inl rfl), hzero]
    rfl
  · exact hnull.isNonzero_inverted (Or.inl rfl)

end Value

end ConstFold
