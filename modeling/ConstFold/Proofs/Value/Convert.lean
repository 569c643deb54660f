import ConstFold.Proofs.Binary.Convert
import ConstFold.Value.Convert

/-!
# Conversions along a path

A constant can be converted step by step along a path of kinds. Stops on the way are invisible if
each of the kinds *keeps* the constant: converted to it, the constant still converts to every kind
as before. This is a property of one step from the start of the path alone. A constant that
converts like the start takes the next step as the start would, so the step lemma for the start
carries any number of stops, in any order.

A 32-bit integer is kept by the kinds that hold all of its digits, and a single float that is no
NaN by both float kinds.

## Main definitions

* `Value.convertAll` — conversion along a path
* `Value.Keeps` — a stop that changes no later conversion

## Main results

* `keeps_int32`, `keeps_float32` — the stops that keep a constant
* `convertAll_append` — a path through such stops arrives where the direct conversion does
* `convertAll_lossless` — both together
-/

namespace ConstFold

/-! ### Words -/

theorem toInt_widen (n : BitVec 32) : (widen n).toInt = n.toInt :=
  BitVec.toInt_signExtend_of_le (by decide)

theorem narrow_widen (n : BitVec 32) : narrow (widen n) = n := by
  ext i hi
  simp [narrow, widen, BitVec.getLsbD_signExtend, hi]
  omega

theorem ofWord_widen (f : Format) (n : BitVec 32) : Binary.ofWord f (widen n) = .ofWord f n := by
  rw [Binary.ofWord, toInt_widen, Binary.ofWord]

theorem natAbs_toInt_lt (n : BitVec 32) : n.toInt.natAbs < 2 ^ 32 := by
  have hle := n.le_toInt
  have hlt := n.toInt_lt
  omega

/-- The double format has digits and range for every 32-bit integer. -/
theorem holds_toInt (n : BitVec 32) : Format.binary64.Holds n.toInt :=
  Format.holds_of_natAbs_lt
    ((natAbs_toInt_lt n).trans (Nat.pow_lt_pow_right Nat.one_lt_two (by decide)))
    ((natAbs_toInt_lt n).trans (Nat.pow_lt_pow_right Nat.one_lt_two (by decide)))

section

variable (n : BitVec 32)

theorem toWord_ofWord_int32 : (Binary.ofWord .binary64 n).toWord 32 = n :=
  Binary.toWord_ofWord (holds_toInt n)

theorem toWord_ofWord_int64 : (Binary.ofWord .binary64 n).toWord 64 = widen n := by
  rw [← ofWord_widen]
  refine Binary.toWord_ofWord ?_
  rw [toInt_widen]
  exact holds_toInt n

theorem convert_ofWord (g : Format) : (Binary.ofWord .binary64 n).convert g = .ofWord g n :=
  Binary.convert_ofInt (holds_toInt n) g

end

theorem binary32_within_binary64 : Format.binary32.Within .binary64 :=
  ⟨by decide, by decide⟩

namespace Value

/-! ### Paths -/

/-- A constant converted along a path of kinds. -/
def convertAll (v : Value) (path : List Kind) : Except KindError Value :=
  path.foldlM Value.convert v

@[simp] theorem convertAll_nil (v : Value) : v.convertAll [] = .ok v := rfl

theorem convertAll_cons {v u : Value} {k : Kind} (h : v.convert k = .ok u) (path : List Kind) :
    v.convertAll (k :: path) = u.convertAll path := by
  rw [convertAll, List.foldlM_cons, h]
  rfl

/-- `u` converts to every kind as `v` does. -/
def Alike (u v : Value) : Prop :=
  ∀ k, u.convert k = v.convert k

/-- A stop at the kind changes no later conversion of the constant, whatever its destination. The
conversion to the kind has to succeed. -/
def Keeps (v : Value) (k : Kind) : Prop :=
  ∃ u, v.convert k = .ok u ∧ u.Alike v

/-- Whatever converts like `v` goes along the path as `v` would. -/
theorem Alike.convertAll_append {u v : Value} (hu : u.Alike v) {path : List Kind}
    (h : ∀ k ∈ path, v.Keeps k) (dest : Kind) :
    u.convertAll (path ++ [dest]) = v.convert dest := by
  induction path generalizing u with
  | nil =>
    rw [convertAll, List.nil_append, List.foldlM_cons, hu dest]
    exact bind_pure _
  | cons k path ih =>
    obtain ⟨u', hstep, hu'⟩ := h k List.mem_cons_self
    rw [convertAll, List.cons_append, List.foldlM_cons, hu k, hstep]
    exact ih hu' fun l hl => h l (List.mem_cons_of_mem _ hl)

theorem convertAll_append {v : Value} {path : List Kind} (h : ∀ k ∈ path, v.Keeps k)
    (dest : Kind) : v.convertAll (path ++ [dest]) = v.convert dest :=
  Alike.convertAll_append (fun _ => rfl) h dest

/-! ### Stops that keep a constant -/

theorem keeps_int32 (n : BitVec 32) {k : Kind} (hk : k = .int32 ∨ k = .int64 ∨ k = .float64) :
    (int32 n).Keeps k := by
  rcases hk with rfl | rfl | rfl
  · exact ⟨_, rfl, fun _ => rfl⟩
  · refine ⟨_, rfl, fun d => ?_⟩
    cases d <;> simp [convert, convertInt64, convertInt32, narrow_widen, ofWord_widen]
  · refine ⟨_, rfl, fun d => ?_⟩
    cases d <;> simp [convert, convertFloat64, convertInt32, toWord_ofWord_int32,
      toWord_ofWord_int64, convert_ofWord]

theorem keeps_float32 {x : Binary .binary32} (hx : x.isNaN = false) {k : Kind}
    (hk : k = .float32 ∨ k = .float64) : (float32 x).Keeps k := by
  rcases hk with rfl | rfl
  · exact ⟨_, rfl, fun _ => rfl⟩
  · have hword := Binary.toWord_convert binary32_within_binary64 hx
    have hback := Binary.convert_convert_self binary32_within_binary64 hx
    refine ⟨_, rfl, fun d => ?_⟩
    cases d <;> simp [convert, convertFloat64, convertFloat32, hword, hback]

/-- What a constant is converted to has the kind asked for. -/
theorem kind_of_convert {v r : Value} {k : Kind} (h : v.convert k = .ok r) : r.kind = k := by
  cases v <;> cases k <;> cases h <;> rfl

/-- Between numeric kinds conversion never fails. -/
theorem exists_convert {v : Value} {k : Kind} (hv : v.kind.isNumeric = true)
    (hk : k.isNumeric = true) : ∃ r, v.convert k = .ok r := by
  cases v with
  | int32 _ | int64 _ | float32 _ | float64 _ =>
    cases k with
    | int32 | int64 | float32 | float64 => exact ⟨_, rfl⟩
    | void | addr | cond | memory | tuple => exact absurd hk Bool.false_ne_true
  | addr _ | cond _ | memory _ => exact absurd hv Bool.false_ne_true

/-- From and to other kinds it always fails. -/
theorem exists_convert_iff (v : Value) (k : Kind) :
    (∃ r, v.convert k = .ok r) ↔ v.kind.isNumeric = true ∧ k.isNumeric = true := by
  refine ⟨?_, fun h => exists_convert h.1 h.2⟩
  rintro ⟨r, hr⟩
  cases v <;> cases k <;> first | exact ⟨rfl, rfl⟩ | cases hr

/-- **Paths through lossless kinds are invisible.** From a 32-bit integer along any path of integer
kinds and `float64`, and from a single float that is no NaN along any path of float kinds, a numeric
destination is reached with the same bits as directly. -/
theorem convertAll_lossless {dest : Kind} (hdest : dest.isNumeric = true) :
    (∀ (n : BitVec 32) (path : List Kind),
      (∀ k ∈ path, k = .int32 ∨ k = .int64 ∨ k = .float64) →
      ∃ r, (int32 n).convertAll (path ++ [dest]) = .ok r ∧ (int32 n).convert dest = .ok r) ∧
    (∀ (x : Binary .binary32), x.isNaN = false → ∀ path : List Kind,
      (∀ k ∈ path, k = .float32 ∨ k = .float64) →
      ∃ r, (float32 x).convertAll (path ++ [dest]) = .ok r ∧ (float32 x).convert dest = .ok r) := by
  constructor
  · intro n path hpath
    obtain ⟨r, hr⟩ := exists_convert (v := int32 n) rfl hdest
    refine ⟨r, ?_, hr⟩
    rw [convertAll_append (fun k hk => keeps_int32 n (hpath k hk)), hr]
  · intro x hx path hpath
    obtain ⟨r, hr⟩ := exists_convert (v := float32 x) rfl hdest
    refine ⟨r, ?_, hr⟩
    rw [convertAll_append (fun k hk => keeps_float32 hx (hpath k hk)), hr]

/-- An integer with one digit more than the single format has is rounded once, however it gets
there, and the least negative number of that format comes back with its sign. -/
theorem convertAll_lossless_round : Kind.float32.isNumeric = true ∧
    (int32 16777217#32).convertAll [.float64, .int64, .float64, .float32]
      = .ok (float32 (.ofWord _ 16777216#32)) ∧
    (float32 (.ofCode _ true 1)).convertAll [.float64, .float64, .float32, .float32]
      = .ok (float32 (.ofCode _ true 1)) := by
  have hnum : Kind.float32.isNumeric = true := rfl
  have hdirect : (int32 16777217#32).convert .float32 = .ok (float32 (.ofWord _ 16777216#32)) := by
    decide
  obtain ⟨r, hpath, hr⟩ := (convertAll_lossless hnum).1 16777217#32
    [.float64, .int64, .float64] (by simp)
  obtain ⟨r', hpath', hr'⟩ := (convertAll_lossless hnum).2 (.ofCode _ true 1) (by decide)
    [.float64, .float64, .float32] (by simp)
  obtain rfl := Except.ok.inj (hr.symm.trans hdirect)
  obtain rfl := Except.ok.inj (hr'.symm.trans rfl)
  exact ⟨hnum, hpath, hpath'⟩

end Value

end ConstFold
