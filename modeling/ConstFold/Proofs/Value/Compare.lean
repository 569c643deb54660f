import ConstFold.Proofs.Binary.Exact
import ConstFold.Value.Convert
import ConstFold.Value.Laws

/-!
# The order that comparison decides

Every constant of a numeric kind and every address denotes a number, up to the infinities of the
float kinds: a word its signed number, or on request the unsigned one; an address its number; a
datum its exact rational. `Value.compare` is the order of these numbers, with `un` for NaNs.

The three payloads reach that order in different ways. Words and addresses are compared by the
numbers themselves, which embed in the rationals. Floats are compared by rank, the code with a sign,
so there the order of the numbers is `Binary.rank_lt_iff`.

All of this is oriented: swapped operands have the reversed outcome, and operands that are not
compared fail with the swapped error.

## Main definitions

* `Condition.Orders` — an outcome is the right one for two elements of a linear order
* `Value.denote` — the number of a constant
* `Value.Le` — the order that outcomes define
* `KindError.swap` — the error for swapped operands

## Main results

* `compare_swap` — comparing swapped operands, of any kinds
* `compare_denote` — the outcome is that of the numbers, and `Le` is a total preorder
-/

namespace ConstFold

namespace Condition

/-- The outcome says how `x` and `y` are ordered. Unordered operands are in no order at all, so `un`
holds of none. -/
def Orders {α : Type*} [LT α] (c : Condition) (x y : α) : Prop :=
  match c with
  | lt => x < y
  | eq => x = y
  | gt => y < x
  | un => False

theorem orders_ofOrdering {α : Type*} [LinearOrder α] (x y : α) :
    (ofOrdering (compare x y)).Orders x y := by
  cases h : compare x y with
  | lt => exact compare_lt_iff_lt.mp h
  | eq => exact compare_eq_iff_eq.mp h
  | gt => exact compare_gt_iff_gt.mp h

/-- An outcome for two elements is one for their images. -/
theorem Orders.map {α β : Type*} [LT α] [LT β] {c : Condition} {x y : α} {x' y' : β}
    (h : c.Orders x y) (hlt : x < y → x' < y') (heq : x = y → x' = y') (hgt : y < x → y' < x') :
    c.Orders x' y' := by
  cases c with
  | lt => exact hlt h
  | eq => exact heq h
  | gt => exact hgt h
  | un => exact h.elim

theorem Orders.strictMono {α β : Type*} [Preorder α] [Preorder β] {g : α → β} (hg : StrictMono g)
    {c : Condition} {x y : α} (h : c.Orders x y) : c.Orders (g x) (g y) :=
  h.map (fun hlt => hg hlt) (fun heq => congrArg g heq) (fun hgt => hg hgt)

section

variable {α : Type*} [LinearOrder α] {c : Condition} {x y : α}

theorem Orders.ne_un (h : c.Orders x y) : c ≠ un := by
  rintro rfl
  exact h

/-- There is one right outcome. -/
theorem Orders.eq_ofOrdering (h : c.Orders x y) : c = ofOrdering (compare x y) := by
  cases c with
  | lt => rw [compare_lt_iff_lt.mpr h]; rfl
  | eq => rw [compare_eq_iff_eq.mpr h]; rfl
  | gt => rw [compare_gt_iff_gt.mpr h]; rfl
  | un => exact h.elim

theorem Orders.reverse (h : c.Orders x y) : c.reverse.Orders y x := by
  cases c with
  | lt => exact h
  | eq => exact Eq.symm h
  | gt => exact h
  | un => exact h.elim

/-- Swapped elements have the reversed outcome. -/
theorem ofOrdering_compare_swap (x y : α) :
    ofOrdering (compare y x) = (ofOrdering (compare x y)).reverse :=
  (orders_ofOrdering x y).reverse.eq_ofOrdering.symm

theorem Orders.eq_lt_or_eq_iff (h : c.Orders x y) : c = lt ∨ c = eq ↔ x ≤ y := by
  cases c with
  | lt => simpa using le_of_lt h
  | eq => simpa using le_of_eq h
  | gt => simpa using show y < x from h
  | un => exact h.elim

end

end Condition

namespace Binary

variable {f : Format} {a b : Binary f}

theorem compare_eq_un (h : a.isNaN = true ∨ b.isNaN = true) : a.compare b = .un := by
  rw [Binary.compare, if_pos (by simpa using h)]

theorem compare_swap (a b : Binary f) : b.compare a = (a.compare b).reverse := by
  rw [Binary.compare, Binary.compare, Bool.or_comm b.isNaN]
  split
  · rfl
  · exact Condition.ofOrdering_compare_swap a.rank b.rank

theorem orders_compare_rank (ha : a.isNaN = false) (hb : b.isNaN = false) :
    (a.compare b).Orders a.rank b.rank := by
  rw [Binary.compare, if_neg (by simp [ha, hb])]
  exact Condition.orders_ofOrdering a.rank b.rank

theorem orders_compare (ha : a.isNaN = false) (hb : b.isNaN = false) :
    (a.compare b).Orders a.toExtended b.toExtended :=
  (orders_compare_rank ha hb).map (rank_lt_iff ha hb).mp (rank_eq_iff ha hb).mp
    (rank_lt_iff hb ha).mp

end Binary

theorem compareWords_swap {w : ℕ} (unsigned : Bool) (a b : BitVec w) :
    compareWords unsigned b a = (compareWords unsigned a b).reverse := by
  cases unsigned with
  | false => exact Condition.ofOrdering_compare_swap a.toInt b.toInt
  | true => exact Condition.ofOrdering_compare_swap a.toNat b.toNat

/-- The error of an operation whose operands are swapped: what was expected is what was found. -/
def KindError.swap : KindError → KindError
  | kindMismatch expected found => kindMismatch found expected
  | noPayload k => noPayload k
  | notComparable k => notComparable k
  | notNumeric k => notNumeric k

/-! ### Numbers of constants -/

def wordNumber {w : ℕ} (unsigned : Bool) (v : BitVec w) : ℤ :=
  if unsigned then v.toNat else v.toInt

theorem orders_compareWords {w : ℕ} (unsigned : Bool) (a b : BitVec w) :
    (compareWords unsigned a b).Orders (wordNumber unsigned a) (wordNumber unsigned b) := by
  cases unsigned with
  | false => exact Condition.orders_ofOrdering a.toInt b.toInt
  | true => exact (Condition.orders_ofOrdering a.toNat b.toNat).strictMono Nat.strictMono_cast

/-- An integer among the extended rationals. -/
def extendedOfInt (n : ℤ) : WithBot (WithTop ℚ) :=
  ((n : ℚ) : WithTop ℚ)

theorem extendedOfInt_strictMono : StrictMono extendedOfInt :=
  WithBot.coe_strictMono.comp (WithTop.coe_strictMono.comp Int.cast_strictMono)

/-- Kinds whose constants are compared: the numeric kinds and addresses. -/
def Kind.isComparable (k : Kind) : Bool :=
  k.isNumeric || k == .addr

namespace Value

/-- The number of a constant, words being unsigned on request; nothing is said about the kinds that
are not compared. -/
def denote (unsigned : Bool) : Value → WithBot (WithTop ℚ)
  | int32 v => extendedOfInt (wordNumber unsigned v)
  | int64 v => extendedOfInt (wordNumber unsigned v)
  | float32 b => b.toExtended
  | float64 b => b.toExtended
  | addr a => extendedOfInt a.raw.toNat
  | cond _ => 0
  | memory _ => 0

/-- The outcome of comparing `a` with `b` is that `a` is less or equal. Neither a failed comparison
nor an unordered outcome counts. -/
def Le (unsigned : Bool) (a b : Value) : Prop :=
  a.compare b unsigned = .ok .lt ∨ a.compare b unsigned = .ok .eq

variable {a b : Value}

/-! ### Outcomes -/

theorem compare_eq_un (u : Bool) (hk : b.kind = a.kind) (h : a.isNaN = true ∨ b.isNaN = true) :
    a.compare b u = .ok .un := by
  cases hk using cases_of_kind_eq with
  | float32 a b => exact congrArg Except.ok (Binary.compare_eq_un h)
  | float64 a b => exact congrArg Except.ok (Binary.compare_eq_un h)
  | int32 _ _ | int64 _ _ | addr _ _ | cond _ _ | memory _ _ =>
    exact absurd (or_self_iff.mp h) Bool.false_ne_true

/-- Where no NaN takes part, the outcome is that of the numbers. -/
theorem exists_orders (u : Bool) (hk : b.kind = a.kind) (hc : a.kind.isComparable = true)
    (ha : a.isNaN = false) (hb : b.isNaN = false) :
    ∃ c : Condition, a.compare b u = .ok c ∧ c.Orders (a.denote u) (b.denote u) := by
  cases hk using cases_of_kind_eq with
  | int32 a b =>
    exact ⟨_, rfl, (orders_compareWords u a b).strictMono extendedOfInt_strictMono⟩
  | int64 a b =>
    exact ⟨_, rfl, (orders_compareWords u a b).strictMono extendedOfInt_strictMono⟩
  | float32 a b => exact ⟨_, rfl, Binary.orders_compare ha hb⟩
  | float64 a b => exact ⟨_, rfl, Binary.orders_compare ha hb⟩
  | addr a b =>
    exact ⟨_, rfl, (Condition.orders_ofOrdering a.raw.toNat b.raw.toNat).strictMono
      (extendedOfInt_strictMono.comp Nat.strictMono_cast)⟩
  | cond _ _ | memory _ _ => exact absurd hc Bool.false_ne_true

theorem compare_of_kind_ne (u : Bool) (hk : a.kind ≠ b.kind) :
    a.compare b u = .error (.kindMismatch a.kind b.kind) := by
  rw [Value.compare, if_neg hk]
  -- The patterns that are compared pair constants of one kind.
  all_goals
    rintro x y rfl rfl
    exact hk rfl

/-- Two constants are compared if they have one kind, and that kind has an order. -/
theorem exists_compare_iff (a b : Value) (u : Bool) :
    (∃ c, a.compare b u = .ok c) ↔ a.kind = b.kind ∧ a.kind ≠ .cond ∧ a.kind ≠ .memory := by
  by_cases hk : b.kind = a.kind
  · cases hk using cases_of_kind_eq with
    | int32 _ _ | int64 _ _ | float32 _ _ | float64 _ _ | addr _ _ =>
      exact ⟨fun _ => ⟨rfl, nofun, nofun⟩, fun _ => ⟨_, rfl⟩⟩
    | cond _ _ => exact ⟨nofun, fun h => absurd rfl h.2.1⟩
    | memory _ _ => exact ⟨nofun, fun h => absurd rfl h.2.2⟩
  · rw [compare_of_kind_ne u (Ne.symm hk)]
    exact ⟨nofun, fun h => absurd h.1.symm hk⟩

/-- **Swapped operands have the reversed outcome**, or fail with the swapped error. -/
theorem compare_swap (a b : Value) (u : Bool) :
    b.compare a u = ((a.compare b u).map Condition.reverse).mapError KindError.swap := by
  by_cases hk : b.kind = a.kind
  · cases hk using cases_of_kind_eq with
    | int32 a b => exact congrArg Except.ok (compareWords_swap u a b)
    | int64 a b => exact congrArg Except.ok (compareWords_swap u a b)
    | float32 a b => exact congrArg Except.ok (Binary.compare_swap a b)
    | float64 a b => exact congrArg Except.ok (Binary.compare_swap a b)
    | addr a b =>
      exact congrArg Except.ok (Condition.ofOrdering_compare_swap a.raw.toNat b.raw.toNat)
    | cond _ _ | memory _ _ => rfl
  · rw [compare_of_kind_ne u hk, compare_of_kind_ne u (Ne.symm hk)]
    rfl

theorem compare_eq_of_not_isInteger (u u' : Bool) (h : a.kind.isInteger = false) :
    a.compare b u = a.compare b u' := by
  cases a with
  | int32 _ | int64 _ => exact absurd h.symm Bool.false_ne_true
  | float32 _ | float64 _ | addr _ | cond _ | memory _ =>
    cases b <;> rfl

/-- Outcomes order the constants that are no NaNs as their numbers. -/
theorem le_iff (u : Bool) (hk : b.kind = a.kind) (hc : a.kind.isComparable = true)
    (ha : a.isNaN = false) (hb : b.isNaN = false) :
    a.Le u b ↔ a.denote u ≤ b.denote u := by
  obtain ⟨c, hcmp, hord⟩ := exists_orders u hk hc ha hb
  rw [Le, hcmp, Except.ok.injEq, Except.ok.injEq, hord.eq_lt_or_eq_iff]

/-- The constants of a kind that are no NaNs. -/
def ordered (k : Kind) : Set Value :=
  {v | v.kind = k ∧ v.isNaN = false}

/-- **Comparison is the order of the numbers.** Constants of one comparable kind compare as
unordered exactly when one of them is a NaN, and otherwise as their numbers do; only integers heed
the flag. Away from NaNs the outcomes so make up a total preorder. -/
theorem compare_denote {k : Kind} (hc : k.isComparable = true) (unsigned : Bool) :
    (∀ a b : Value, a.kind = k → b.kind = k →
      (a.compare b unsigned = .ok .un ↔ a.isNaN = true ∨ b.isNaN = true) ∧
      (a.isNaN = false → b.isNaN = false → ∃ c : Condition, a.compare b unsigned = .ok c ∧
        c.Orders (a.denote unsigned) (b.denote unsigned)) ∧
      (k.isInteger = false → ∀ u, a.compare b u = a.compare b unsigned)) ∧
    (∀ a ∈ ordered k, ∀ b ∈ ordered k, a.Le unsigned b ∨ b.Le unsigned a) ∧
    (∀ a ∈ ordered k, ∀ b ∈ ordered k, ∀ c ∈ ordered k,
      a.Le unsigned b → b.Le unsigned c → a.Le unsigned c) := by
  have hle {a b : Value} (ha : a ∈ ordered k) (hb : b ∈ ordered k) :
      a.Le unsigned b ↔ a.denote unsigned ≤ b.denote unsigned :=
    le_iff unsigned (hb.1.trans ha.1.symm) (ha.1 ▸ hc) ha.2 hb.2
  refine ⟨?_, ?_, ?_⟩
  · rintro a b rfl hb
    refine ⟨⟨fun h => ?_, compare_eq_un unsigned hb⟩,
      exists_orders unsigned hb hc, fun hint u => compare_eq_of_not_isInteger u unsigned hint⟩
    by_contra hn
    rw [not_or, Bool.not_eq_true, Bool.not_eq_true] at hn
    obtain ⟨c, hcmp, hord⟩ := exists_orders unsigned hb hc hn.1 hn.2
    exact hord.ne_un (Except.ok.inj (hcmp.symm.trans h))
  · intro a ha b hb
    rw [hle ha hb, hle hb ha]
    exact le_total _ _
  · intro a ha b hb c hc hab hbc
    rw [hle ha hb] at hab
    rw [hle hb hc] at hbc
    exact (hle ha hc).mpr (hab.trans hbc)

/-- A negative datum with a greater code is the lesser one. -/
theorem compare_denote_negative :
    Kind.float32.isComparable = true ∧
      (float32 (.ofCode _ true 0x40000000)).compare (float32 (.ofCode _ true 0x3f800000)) true
        = .ok .lt ∧
      (float32 (.ofCode _ true 0x40000000)).denote true
        < (float32 (.ofCode _ true 0x3f800000)).denote true := by
  have hcmp : (float32 (.ofCode _ true 0x40000000)).compare
      (float32 (.ofCode _ true 0x3f800000)) true = .ok .lt := by decide
  obtain ⟨c, hc, hord⟩ := ((compare_denote (k := .float32) rfl true).1
    (float32 (.ofCode _ true 0x40000000)) (float32 (.ofCode _ true 0x3f800000)) rfl rfl).2.1
    (by decide) (by decide)
  obtain rfl : c = .lt := Except.ok.inj (hc.symm.trans hcmp)
  exact ⟨rfl, hcmp, hord⟩

end Value

end ConstFold
