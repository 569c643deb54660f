import ConstFold.Proofs.Binary.Integer
import ConstFold.Proofs.Value.Convert

/-!
# There and back again

A constant converted to another numeric kind and back need not be what it was: high bits are
dropped, digits are rounded off, numbers are saturated, a NaN becomes zero. But all of that happens
on the first two steps. What comes back *returns*: it is converted as before, and the next round
trip does not change it.

Each pair of kinds has its own reason. Between integers the kept bits are kept again. Between words
and data it is `Binary.ofWord_toWord_ofWord` one way and `Binary.toWord_ofWord_toWord` the other,
between the two formats `Binary.convert_convert_convert`.

## Main definitions

* `Value.Returns` — after a round trip the constant is converted as before

## Main results

* `returns` — every numeric constant returns from every numeric kind
* `convert_roundTrip` — so round trips are idempotent
-/

namespace ConstFold

/-! ### The ends of the integer kinds -/

theorem binary32_returnsEnds_32 : Format.binary32.ReturnsEnds 32 :=
  ⟨by decide +kernel, by decide +kernel⟩

theorem binary32_returnsEnds_64 : Format.binary32.ReturnsEnds 64 :=
  ⟨by decide +kernel, by decide +kernel⟩

theorem binary64_returnsEnds_32 : Format.binary64.ReturnsEnds 32 :=
  ⟨by decide +kernel, by decide +kernel⟩

theorem binary64_returnsEnds_64 : Format.binary64.ReturnsEnds 64 :=
  ⟨by decide +kernel, by decide +kernel⟩

namespace Value

/-- The constant can be converted to the kind and back, and the constant that comes back is
converted to the kind as the first one was. -/
def Returns (v : Value) (dest : Kind) : Prop :=
  ∃ r u, v.convert dest = .ok r ∧ r.convert v.kind = .ok u ∧ u.convert dest = .ok r

/-! ### By the kind converted from -/

section

variable {dest : Kind} (hd : dest.isNumeric = true)
include hd

theorem returns_int32 (v : BitVec 32) : (int32 v).Returns dest := by
  cases dest with
  | int32 => exact ⟨_, _, rfl, rfl, rfl⟩
  | int64 =>
    refine ⟨int64 (widen v), int32 (narrow (widen v)), rfl, rfl, ?_⟩
    rw [narrow_widen]
    rfl
  | float32 =>
    exact ⟨_, _, rfl, rfl, congrArg (Except.ok ∘ float32) (Binary.ofWord_toWord_ofWord _ v)⟩
  | float64 =>
    exact ⟨_, _, rfl, rfl, congrArg (Except.ok ∘ float64) (Binary.ofWord_toWord_ofWord _ v)⟩
  | void | addr | cond | memory | tuple => exact absurd hd Bool.false_ne_true

theorem returns_int64 (v : BitVec 64) : (int64 v).Returns dest := by
  cases dest with
  | int32 => exact ⟨_, _, rfl, rfl, congrArg (Except.ok ∘ int32) (narrow_widen (narrow v))⟩
  | int64 => exact ⟨_, _, rfl, rfl, rfl⟩
  | float32 =>
    exact ⟨_, _, rfl, rfl, congrArg (Except.ok ∘ float32) (Binary.ofWord_toWord_ofWord _ v)⟩
  | float64 =>
    exact ⟨_, _, rfl, rfl, congrArg (Except.ok ∘ float64) (Binary.ofWord_toWord_ofWord _ v)⟩
  | void | addr | cond | memory | tuple => exact absurd hd Bool.false_ne_true

theorem returns_float32 (b : Binary .binary32) : (float32 b).Returns dest := by
  cases dest with
  | int32 =>
    exact ⟨_, _, rfl, rfl,
      congrArg (Except.ok ∘ int32) (Binary.toWord_ofWord_toWord binary32_returnsEnds_32 b)⟩
  | int64 =>
    exact ⟨_, _, rfl, rfl,
      congrArg (Except.ok ∘ int64) (Binary.toWord_ofWord_toWord binary32_returnsEnds_64 b)⟩
  | float32 => exact ⟨_, _, rfl, rfl, rfl⟩
  | float64 =>
    exact ⟨_, _, rfl, rfl, congrArg (Except.ok ∘ float64)
      (Binary.convert_convert_convert (Or.inl binary32_within_binary64) b)⟩
  | void | addr | cond | memory | tuple => exact absurd hd Bool.false_ne_true

theorem returns_float64 (b : Binary .binary64) : (float64 b).Returns dest := by
  cases dest with
  | int32 =>
    exact ⟨_, _, rfl, rfl,
      congrArg (Except.ok ∘ int32) (Binary.toWord_ofWord_toWord binary64_returnsEnds_32 b)⟩
  | int64 =>
    exact ⟨_, _, rfl, rfl,
      congrArg (Except.ok ∘ int64) (Binary.toWord_ofWord_toWord binary64_returnsEnds_64 b)⟩
  | float32 =>
    exact ⟨_, _, rfl, rfl, congrArg (Except.ok ∘ float32)
      (Binary.convert_convert_convert (Or.inr binary32_within_binary64) b)⟩
  | float64 => exact ⟨_, _, rfl, rfl, rfl⟩
  | void | addr | cond | memory | tuple => exact absurd hd Bool.false_ne_true

/-- Every numeric constant returns from every numeric kind. -/
theorem returns {v : Value} (hv : v.kind.isNumeric = true) : v.Returns dest := by
  cases v with
  | int32 v => exact returns_int32 hd v
  | int64 v => exact returns_int64 hd v
  | float32 b => exact returns_float32 hd b
  | float64 b => exact returns_float64 hd b
  | addr _ | cond _ | memory _ => exact absurd hv Bool.false_ne_true

end

/-! ### Paths there and back -/

/-- **A round trip of conversions loses information at most once.** From a numeric constant to a
numeric kind, back and there again is the same as there alone; so going there and back changes
nothing on what has come back once. -/
theorem convert_roundTrip {v : Value} {dest : Kind} (hv : v.kind.isNumeric = true)
    (hd : dest.isNumeric = true) :
    ∃ r u, v.convert dest = .ok r ∧ v.convertAll [dest, v.kind, dest] = .ok r ∧
      v.convertAll [dest, v.kind] = .ok u ∧ u.kind = v.kind ∧
      u.convertAll [dest, v.kind] = .ok u := by
  obtain ⟨r, u, hr, hu, hback⟩ := returns hd hv
  refine ⟨r, u, hr, ?_, ?_, kind_of_convert hu, ?_⟩
  · rw [convertAll_cons hr, convertAll_cons hu, convertAll_cons hback, convertAll_nil]
  · rw [convertAll_cons hr, convertAll_cons hu, convertAll_nil]
  · rw [convertAll_cons hback, convertAll_cons hu, convertAll_nil]

/-- A word short of the greatest one is rounded up past it and comes back as the greatest one, which
stays. -/
theorem convert_roundTrip_saturated :
    (int64 0x7fffffffffffffbf#64).kind.isNumeric = true ∧ Kind.float32.isNumeric = true ∧
      (int64 0x7fffffffffffffbf#64).convert .float32
        = .ok (float32 (.ofCode _ false 0x5f000000)) ∧
      (int64 0x7fffffffffffffbf#64).convertAll [.float32, .int64, .float32]
        = .ok (float32 (.ofCode _ false 0x5f000000)) ∧
      (int64 0x7fffffffffffffff#64).convertAll [.float32, .int64]
        = .ok (int64 0x7fffffffffffffff#64) := by
  have hsource : (int64 0x7fffffffffffffbf#64).kind.isNumeric = true := rfl
  have hdest : Kind.float32.isNumeric = true := rfl
  have hround : (int64 0x7fffffffffffffbf#64).convert .float32
      = .ok (float32 (.ofCode _ false 0x5f000000)) := by decide
  have hsat : (float32 (.ofCode _ false 0x5f000000)).convert .int64
      = .ok (int64 0x7fffffffffffffff#64) := by decide
  obtain ⟨r, u, hr, hthere, hback, -, hstay⟩ := convert_roundTrip hsource hdest
  obtain rfl := Except.ok.inj (hr.symm.trans hround)
  change (int64 _).convertAll [.float32, .int64] = _ at hback
  rw [convertAll_cons hround, convertAll_cons hsat] at hback
  obtain rfl := Except.ok.inj hback
  exact ⟨hsource, hdest, hround, hthere, hstay⟩

end Value

end ConstFold
