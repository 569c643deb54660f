import ConstFold.Condition.Mask.Run
import ConstFold.Natural
import ConstFold.Proofs.Condition.Basic
import Mathlib.Data.Nat.Bitwise
import Mathlib.Data.Set.Lattice
import Mathlib.Data.Set.SymmDiff
import Mathlib.Order.ConditionallyCompleteLattice.Basic

/-!
# Runs of masks are runs of sets

A mask stands for the set of outcomes that it accepts, and each operation on masks for an operation
on sets. The operations do not treat the unknown bits alike: some drop them, some keep them, and
some combine them with those of the operand. Nothing of this can be seen in the sets, neither after
one operation nor after many, because what a set becomes depends on sets alone (`Change.onSet`).

What can be seen is a mask compared with another one as a byte, or with the empty byte. As long as
no unknown bit ever enters, these are comparisons of sets as well: no operation sets such a bit by
itself.

## Main definitions

* `Mask.accepted` — the set of outcomes for which a mask stands
* `Mask.Change.onSet`, `Mask.setsAlong` — the operations on sets, and the sets along a run
* `Mask.Query.Answers` — the answer to a query, read off a set
* `Mask.IsKnown` — no bit above the four known ones is set

## Main results

* `accepted_change`, `accepted_run` — masks go from set to set as the operations say
* `answers_query` — queries answer as the set does
* `IsKnown.eq_iff`, `IsKnown.change` — known masks are told apart by their sets, and stay known
* `run_accepted` — all of this along every run
-/

namespace ConstFold

open scoped symmDiff

namespace Mask

/-! ### Accepted sets -/

def accepted (m : Mask) : Set Condition :=
  {c | m.apply c = true}

@[simp] theorem mem_accepted {m : Mask} {c : Condition} : c ∈ m.accepted ↔ m.apply c = true :=
  Iff.rfl

/-- Swapped operands have the reversed outcomes, all of them and no others. -/
theorem accepted_reverse (m : Mask) : m.reverse.accepted = Condition.reverse '' m.accepted := by
  ext c
  rw [mem_accepted, apply_reverse]
  constructor
  · intro h
    exact ⟨c.reverse, h, c.reverse_reverse⟩
  · rintro ⟨d, hd, rfl⟩
    rw [d.reverse_reverse]
    exact hd

theorem accepted_invert (m : Mask) : m.invert.accepted = m.acceptedᶜ := by
  ext c
  simp [apply_invert]

theorem accepted_complement (m : Mask) : m.complement.accepted = m.acceptedᶜ := by
  ext c
  simp [apply_complement]

@[simp] theorem accepted_truncate (m : Mask) : m.truncate.accepted = m.accepted := by
  ext c
  simp [apply_truncate]

theorem accepted_union (a b : Mask) : (a.union b).accepted = a.accepted ∪ b.accepted := by
  ext c
  simp [apply_union]

theorem accepted_inter (a b : Mask) : (a.inter b).accepted = a.accepted ∩ b.accepted := by
  ext c
  simp [apply_inter]

theorem accepted_diff (a b : Mask) : (a.diff b).accepted = a.accepted \ b.accepted := by
  ext c
  simp [apply_diff]

theorem accepted_symmDiff (a b : Mask) :
    (a.symmDiff b).accepted = a.accepted ∆ b.accepted := by
  ext c
  simp only [mem_accepted, apply_symmDiff, Set.mem_symmDiff]
  cases a.apply c <;> cases b.apply c <;> simp

theorem accepted_ofCondition (c : Condition) : (ofCondition c).accepted = {c} := by
  ext d
  simp [apply_ofCondition]

theorem accepted_always : always.accepted = Set.univ := by
  ext c
  simp [apply_always]

theorem accepted_never : never.accepted = ∅ := by
  ext c
  cases c <;> simp <;> decide

/-! ### Known masks -/

/-- Only the four known bits may be set. Masks that are made of outcomes and of each other are all
known; a mask with other bits can only come from raw bits. -/
def IsKnown (m : Mask) : Prop :=
  m.bits.toNat ≤ 0x0f

instance (m : Mask) : Decidable m.IsKnown :=
  inferInstanceAs (Decidable (m.bits.toNat ≤ 0x0f))

/-- A byte below a power of two has no bit from that power on. -/
theorem getLsbD_of_toNat_lt {x : BitVec 8} {n i : ℕ} (hx : x.toNat < 2 ^ n) (hi : n ≤ i) :
    x.getLsbD i = false :=
  Nat.testBit_lt_two_pow (hx.trans_le (Nat.pow_le_pow_right Nat.two_pos hi))

theorem isKnown_iff_getLsbD {m : Mask} : m.IsKnown ↔ ∀ i, 4 ≤ i → m.bits.getLsbD i = false := by
  constructor
  · intro h i hi
    exact getLsbD_of_toNat_lt (Nat.lt_succ_of_le h) hi
  · intro h
    exact Nat.le_of_lt_succ (Nat.lt_pow_two_of_testBit (n := 4) _ h)

theorem isKnown_always : always.IsKnown :=
  le_rfl

theorem isKnown_never : never.IsKnown :=
  Nat.zero_le _

theorem isKnown_ofCondition (c : Condition) : (ofCondition c).IsKnown := by
  cases c <;> decide

theorem IsKnown.union {a b : Mask} (ha : a.IsKnown) (hb : b.IsKnown) : (a.union b).IsKnown := by
  rw [isKnown_iff_getLsbD] at ha hb ⊢
  intro i hi
  rw [Mask.union, BitVec.getLsbD_or, ha i hi, hb i hi, Bool.or_false]

theorem IsKnown.symmDiff {a b : Mask} (ha : a.IsKnown) (hb : b.IsKnown) :
    (a.symmDiff b).IsKnown := by
  rw [isKnown_iff_getLsbD] at ha hb ⊢
  intro i hi
  rw [Mask.symmDiff, BitVec.getLsbD_xor, ha i hi, hb i hi, Bool.xor_false]

/-- What is left of a known mask is known. -/
theorem IsKnown.and {m : Mask} (h : m.IsKnown) (x : BitVec 8) : IsKnown ⟨m.bits &&& x⟩ := by
  rw [isKnown_iff_getLsbD] at h ⊢
  intro i hi
  rw [BitVec.getLsbD_and, h i hi, Bool.false_and]

theorem IsKnown.inter_right {b : Mask} (hb : b.IsKnown) (a : Mask) : (a.inter b).IsKnown := by
  rw [inter, BitVec.and_comm]
  exact hb.and a.bits

theorem isKnown_truncate (m : Mask) : m.truncate.IsKnown :=
  isKnown_always.inter_right m

theorem isKnown_reverse (m : Mask) : m.reverse.IsKnown := by
  rw [isKnown_iff_getLsbD]
  intro i hi
  have hstay : (0x0a#8).getLsbD i = false := getLsbD_of_toNat_lt (n := 4) (by decide) hi
  have hdown : (0x04#8).getLsbD (2 + i) = false :=
    getLsbD_of_toNat_lt (n := 3) (by decide) (by omega)
  have hup : (0x01#8).getLsbD (i - 2) = false :=
    getLsbD_of_toNat_lt (n := 1) (by decide) (by omega)
  simp [reverse, hstay, hdown, hup]

/-- **Known masks are told apart by the sets they stand for.** -/
theorem IsKnown.eq_iff {a b : Mask} (ha : a.IsKnown) (hb : b.IsKnown) :
    a = b ↔ a.accepted = b.accepted := by
  refine ⟨fun h => h ▸ rfl, fun h => ?_⟩
  rw [isKnown_iff_getLsbD] at ha hb
  have hbit (c : Condition) : a.bits.getLsbD c.ordinal = b.bits.getLsbD c.ordinal := by
    rw [← apply_eq_getLsbD, ← apply_eq_getLsbD, Bool.eq_iff_iff]
    exact Set.ext_iff.mp h c
  refine congrArg Mask.mk (BitVec.eq_of_getLsbD_eq fun i _ => ?_)
  match i with
  | 0 => exact hbit .lt
  | 1 => exact hbit .eq
  | 2 => exact hbit .gt
  | 3 => exact hbit .un
  | i + 4 => rw [ha _ (Nat.le_add_left ..), hb _ (Nat.le_add_left ..)]

/-! ### Queries -/

theorem isEmpty_iff {m : Mask} : m.isEmpty = true ↔ m = never := by
  obtain ⟨bits⟩ := m
  simp [isEmpty, never]

theorem IsKnown.isEmpty_iff {m : Mask} (h : m.IsKnown) : m.isEmpty = true ↔ m.accepted = ∅ := by
  rw [Mask.isEmpty_iff, h.eq_iff isKnown_never, accepted_never]

/-- To contain a known mask is to accept all that it accepts: the intersection is known, whatever
else the first mask has. -/
theorem IsKnown.contains_iff {b : Mask} (hb : b.IsKnown) (a : Mask) :
    a.contains b = true ↔ b.accepted ⊆ a.accepted := by
  have hinter : a.contains b = true ↔ a.inter b = b := by
    obtain ⟨bits⟩ := b
    simp [contains, inter]
  rw [hinter, (hb.inter_right a).eq_iff hb, accepted_inter, Set.inter_eq_right]

theorem IsKnown.intersects_iff {b : Mask} (hb : b.IsKnown) (a : Mask) :
    a.intersects b = true ↔ (a.accepted ∩ b.accepted).Nonempty := by
  have hinter : a.intersects b = !(a.inter b).isEmpty := rfl
  rw [hinter, Bool.not_eq_true', ← Bool.not_eq_true, (hb.inter_right a).isEmpty_iff,
    accepted_inter, Set.nonempty_iff_ne_empty]

theorem isAll_iff {m : Mask} : m.isAll = true ↔ m.accepted = Set.univ := by
  rw [isAll, isKnown_always.contains_iff, accepted_always, Set.univ_subset_iff]

theorem mem_conditions {m : Mask} {c : Condition} : c ∈ m.conditions ↔ c ∈ m.accepted := by
  have hall : c ∈ Condition.all := by cases c <;> decide
  rw [conditions, List.mem_filter, mem_accepted, and_iff_right hall]

/-- What the set `S` of accepted outcomes says about the answer to a query. Operands with unknown
bits are not compared with it, and an empty set does not tell whether the mask is empty. -/
def Query.Answers (S : Set Condition) : Query → Answer → Prop
  | apply c, .flag b => b = true ↔ c ∈ S
  | contains operand, .flag b => operand.IsKnown → (b = true ↔ operand.accepted ⊆ S)
  | intersects operand, .flag b => operand.IsKnown → (b = true ↔ (S ∩ operand.accepted).Nonempty)
  | isEmpty, .flag b => b = true → S = ∅
  | isAll, .flag b => b = true ↔ S = Set.univ
  | checked, .bits b => ∀ bits, b = some bits → S = accepted ⟨bits⟩
  | conditions, .conditions cs => cs.Sublist Condition.all ∧ ∀ c, c ∈ cs ↔ c ∈ S
  | _, _ => False

/-- **Queries are answered as the set of accepted outcomes says.** Two masks with one set may be
answered differently because of their unknown bits; `Query.Answers` leaves open what the set does
not tell. -/
theorem answers_query (m : Mask) (q : Query) : q.Answers m.accepted (m.query q) := by
  cases q with
  | apply c => exact Iff.rfl
  | contains operand => exact fun h => h.contains_iff m
  | intersects operand => exact fun h => h.intersects_iff m
  | isEmpty =>
    intro h
    rw [isEmpty_iff.mp h, accepted_never]
  | isAll => exact isAll_iff
  | checked =>
    intro bits h
    rw [checked?] at h
    split at h
    · rw [← Option.some.inj h]
    · cases h
  | conditions => exact ⟨List.filter_sublist, fun c => mem_conditions⟩

/-! ### Changes -/

/-- The operation on sets that a change of the mask stands for. Of an operand it takes the accepted
set. -/
def Change.onSet (S : Set Condition) : Change → Set Condition
  | reverse => Condition.reverse '' S
  | invert => Sᶜ
  | complement => Sᶜ
  | truncate => S
  | union operand => S ∪ operand.accepted
  | inter operand => S ∩ operand.accepted
  | diff operand => S \ operand.accepted
  | symmDiff operand => S ∆ operand.accepted
  | single c => {c}

/-- **A change of the mask is the operation on its set.** -/
theorem accepted_change (m : Mask) (op : Change) :
    (m.change op).accepted = op.onSet m.accepted := by
  cases op with
  | reverse => exact m.accepted_reverse
  | invert => exact m.accepted_invert
  | complement => exact m.accepted_complement
  | truncate => exact m.accepted_truncate
  | union operand => exact m.accepted_union operand
  | inter operand => exact m.accepted_inter operand
  | diff operand => exact m.accepted_diff operand
  | symmDiff operand => exact m.accepted_symmDiff operand
  | single c => exact accepted_ofCondition c

/-- The operand of a change, if it has one, is known. -/
def Change.IsKnown : Change → Prop
  | union operand | inter operand | diff operand | symmDiff operand => operand.IsKnown
  | reverse | invert | complement | truncate | single _ => True

/-- No change sets an unknown bit by itself. -/
theorem IsKnown.change {m : Mask} (hm : m.IsKnown) {op : Change} (hop : op.IsKnown) :
    (m.change op).IsKnown := by
  cases op with
  | reverse => exact m.isKnown_reverse
  | invert => exact hm.symmDiff isKnown_always
  | complement => exact isKnown_truncate _
  | truncate => exact m.isKnown_truncate
  | union operand => exact hm.union hop
  | inter operand => exact hm.and operand.bits
  | diff operand => exact hm.and _
  | symmDiff operand => exact hm.symmDiff hop
  | single c => exact isKnown_ofCondition c

/-- A change without the unknown bits of its operand. -/
def Change.withKnown : Change → Change
  | union operand => union operand.truncate
  | inter operand => inter operand.truncate
  | diff operand => diff operand.truncate
  | symmDiff operand => symmDiff operand.truncate
  | op => op

theorem Change.onSet_withKnown (S : Set Condition) (op : Change) :
    op.withKnown.onSet S = op.onSet S := by
  cases op <;> simp [withKnown, onSet]

/-! ### Runs -/

/-- What becomes of the accepted set in a step. -/
def Step.onSet (S : Set Condition) : Step → Set Condition
  | change op => op.onSet S
  | query _ => S

/-- The sets after each of a list of steps. -/
def setsAlong (S : Set Condition) : List Step → List (Set Condition)
  | [] => []
  | s :: rest => s.onSet S :: setsAlong (s.onSet S) rest

/-- The operand of a step that changes the mask, if it has one, is known. -/
def Step.IsKnown : Step → Prop
  | change op => op.IsKnown
  | query _ => True

/-- A step without the unknown bits of an operand that changes the mask. -/
def Step.withKnown : Step → Step
  | change op => change op.withKnown
  | query q => query q

theorem accepted_step (m : Mask) (s : Step) : (m.step s).2.accepted = s.onSet m.accepted := by
  cases s with
  | change op => exact m.accepted_change op
  | query q => rfl

/-- **A run of masks is a run of sets.** By induction on the steps, for every mask to start from. -/
theorem accepted_run (m : Mask) (steps : List Step) :
    (m.run steps).map (fun o => o.2.accepted) = setsAlong m.accepted steps := by
  induction steps generalizing m with
  | nil => rfl
  | cons s rest ih => rw [run, List.map_cons, ih, accepted_step, setsAlong]

theorem setsAlong_withKnown (S : Set Condition) (steps : List Step) :
    setsAlong S (steps.map Step.withKnown) = setsAlong S steps := by
  induction steps generalizing S with
  | nil => rfl
  | cons s rest ih =>
    have hstep : s.withKnown.onSet S = s.onSet S := by
      cases s with
      | change op => exact op.onSet_withKnown S
      | query q => rfl
    rw [List.map_cons, setsAlong, setsAlong, hstep, ih]

theorem answers_of_mem_run {m u : Mask} {steps : List Step} {q : Query} {answer : Answer}
    (h : (Step.query q, answer, u) ∈ steps.zip (m.run steps)) : q.Answers u.accepted answer := by
  induction steps generalizing m with
  | nil => simp at h
  | cons s rest ih =>
    rw [run, List.zip_cons_cons, List.mem_cons] at h
    rcases h with h | h
    · -- a query answers at the mask that it leaves
      cases h
      exact answers_query _ q
    · exact ih h

theorem IsKnown.of_mem_run {m u : Mask} (hm : m.IsKnown) {steps : List Step}
    (hsteps : ∀ s ∈ steps, s.IsKnown) (hu : u ∈ m :: (m.run steps).map Prod.snd) : u.IsKnown := by
  induction steps generalizing m with
  | nil => rwa [List.mem_singleton.mp hu]
  | cons s rest ih =>
    rcases List.mem_cons.mp hu with rfl | hu
    · exact hm
    · have hstep : (m.step s).2.IsKnown := by
        cases s with
        | change op => exact hm.change (hsteps _ List.mem_cons_self)
        | query q => exact hm
      exact ih hstep (fun t ht => hsteps t (List.mem_cons_of_mem _ ht)) hu

/-- **Masks implement sets of outcomes along every run.** After each step the accepted set is the
one to which the set operations lead, from the accepted sets of the start and of the operands;
without any unknown bits it would be the same. Each query is answered as the set says at which it is
asked. From known masks only known masks are reached, and these are empty, and equal to each other
and to all known masks, as their sets are. -/
theorem run_accepted (m : Mask) (steps : List Step) :
    (m.run steps).map (fun o => o.2.accepted) = setsAlong m.accepted steps ∧
    (m.truncate.run (steps.map Step.withKnown)).map (fun o => o.2.accepted)
      = setsAlong m.accepted steps ∧
    (∀ q answer u, (Step.query q, answer, u) ∈ steps.zip (m.run steps) →
      q.Answers u.accepted answer) ∧
    (m.IsKnown → (∀ s ∈ steps, s.IsKnown) → ∀ u ∈ m :: (m.run steps).map Prod.snd,
      u.IsKnown ∧ (u.isEmpty = true ↔ u.accepted = ∅) ∧
        ∀ k : Mask, k.IsKnown → (u = k ↔ u.accepted = k.accepted)) := by
  refine ⟨accepted_run m steps, ?_, ?_, ?_⟩
  · rw [accepted_run, setsAlong_withKnown, accepted_truncate]
  · intro q answer u h
    exact answers_of_mem_run h
  · intro hm hsteps u hu
    have hknown := hm.of_mem_run hsteps hu
    exact ⟨hknown, hknown.isEmpty_iff, fun k hk => hknown.eq_iff hk⟩

/-- To swap the operands of a test, to drop the unordered outcome and to negate what is left. -/
private def swapSteps : List Step :=
  [.change .reverse, .query (.contains .gt), .change (.diff .unord), .change .invert]

/-- Of less and unordered, greater is left; its negation is a known mask. -/
theorem run_accepted_swap :
    (Step.query (.contains .gt), .flag true, ⟨0x0c#8⟩) ∈ swapSteps.zip (run ⟨0x09#8⟩ swapSteps) ∧
      gt.accepted ⊆ accepted ⟨0x0c#8⟩ ∧
      ule ∈ (run ⟨0x09#8⟩ swapSteps).map Prod.snd ∧
      (ule = gt.complement ↔ ule.accepted = gt.complement.accepted) := by
  have hquery : (Step.query (.contains .gt), .flag true, ⟨0x0c#8⟩)
      ∈ swapSteps.zip (run ⟨0x09#8⟩ swapSteps) := by decide
  have hend : ule ∈ (run ⟨0x09#8⟩ swapSteps).map Prod.snd := by decide
  have hsteps : ∀ s ∈ swapSteps, s.IsKnown := by
    intro s hs
    simp only [swapSteps, List.mem_cons, List.not_mem_nil, or_false] at hs
    rcases hs with rfl | rfl | rfl | rfl
    · trivial
    · trivial
    · exact isKnown_ofCondition .un
    · trivial
  obtain ⟨-, -, hanswers, hknown⟩ := run_accepted ⟨0x09#8⟩ swapSteps
  refine ⟨hquery, (hanswers _ _ _ hquery (by decide)).mp rfl, hend, ?_⟩
  exact (hknown (by decide) hsteps ule (List.mem_cons_of_mem _ hend)).2.2 _ (by decide)

end Mask

end ConstFold
