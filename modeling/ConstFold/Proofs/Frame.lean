import ConstFold.Frame
import Mathlib.Algebra.BigOperators.Group.List.Basic
import Mathlib.Algebra.GroupWithZero.Nat
import Mathlib.Data.List.Forall2
import Mathlib.Data.Set.Lattice
import Mathlib.Order.CompletePartialOrder
import Mathlib.Order.Interval.Set.Disjoint

/-!
# Frames are tiled by their steps

A frame is laid out without gaps and without overlap: each step begins at the slot where the one
before it ends. `Tiles` says this for the steps between any two slots, so it can be shown along the
list of ordinals, and all else about the ranges of a frame is read off from it.

Of a step, only the offset depends on where it is laid out. From a later slot on, a list of types
has the same steps further up, which is why frames of parts can be put together. How far the frame
reaches is the sum of the slots of the single types, and that sum does not know their order.

## Main definitions

* `Frame.Step.range` — the slots of a step
* `Frame.Step.IsFor` — a step is that of the type with a given ordinal
* `Frame.Tiles` — steps that lie end to end between two slots
* `Frame.Step.shift`, `Frame.shift` — the same step, or frame, further up

## Main results

* `isFor_ofOrdinal` — the step of an ordinal
* `tiles_layoutFrom` — the steps of a frame lie end to end
* `Tiles.pairwise_disjoint`, `Tiles.iUnion_range` — what lies end to end is disjoint and complete
* `layoutFrom_add`, `layout_append` — frames of parts
* `total_layoutFrom` — the slots of a frame
* `layout_tiles` — all of it about the frame of a list of types
-/

namespace ConstFold

/-! ### Ordinals -/

namespace TypeKind

/-- The look-up of ordinals finds a kind of types at its own ordinal only. -/
theorem ofOrdinal?_eq_some_iff {n : ℕ} {t : TypeKind} :
    ofOrdinal? n = some t ↔ t.ordinal = n := by
  constructor
  · intro h
    have ht := ofOrdinal?_ordinal t
    have hlt : t.ordinal < all.length := (List.getElem?_eq_some_iff.mp ht).1
    exact (List.getElem?_inj hlt (by decide)).mp (ht.trans h.symm)
  · rintro rfl
    exact ofOrdinal?_ordinal t

/-- An ordinal that finds nothing is the ordinal of nothing. -/
theorem ordinal_ne_of_ofOrdinal?_eq_none {n : ℕ} (h : ofOrdinal? n = none) (t : TypeKind) :
    t.ordinal ≠ n := by
  rintro rfl
  exact nomatch (ofOrdinal?_ordinal t).symm.trans h

end TypeKind

namespace Frame

/-! ### Steps -/

namespace Step

/-- The number of slots of a step. -/
def size (s : Step) : ℕ :=
  s.slots.getD 0

/-- The slots of a step: those from its offset on, up to the first slot after it. -/
def range (s : Step) : Set ℕ :=
  Set.Ico s.offset s.stop

/-- The same step, `n` slots further up. -/
def shift (n : ℕ) (s : Step) : Step :=
  { s with offset := n + s.offset }

theorem offset_le_stop (s : Step) : s.offset ≤ s.stop :=
  Nat.le_add_right _ _

theorem stop_shift (n : ℕ) (s : Step) : (s.shift n).stop = n + s.stop :=
  Nat.add_assoc _ _ _

theorem disjoint_range {s t : Step} (h : s.stop ≤ t.offset) : Disjoint s.range t.range :=
  Set.Ico_disjoint_Ico.mpr ((min_le_left _ _).trans (h.trans (le_max_right _ _)))

/-- A step is that of the type with a given ordinal, or of no type if no type has the ordinal. -/
structure IsFor (s : Step) (ordinal : ℕ) : Prop where
  /-- It has the machine representation of the type. -/
  kind_eq_some_iff : ∀ k, s.kind = some k ↔ ∃ t : TypeKind, t.ordinal = ordinal ∧ t.kind = k
  size_le : s.size ≤ 2
  size_eq_two_iff :
    s.size = 2 ↔ ordinal = TypeKind.long.ordinal ∨ ordinal = TypeKind.double.ordinal
  size_eq_zero_iff :
    s.size = 0 ↔ ordinal = TypeKind.void.ordinal ∨ ∀ t : TypeKind, t.ordinal ≠ ordinal

/-- **The step of an ordinal is that of its type**, at any offset. -/
theorem isFor_ofOrdinal (offset ordinal : ℕ) : (ofOrdinal offset ordinal).IsFor ordinal := by
  have hkind (k : Kind) : (ofOrdinal offset ordinal).kind = some k ↔
      ∃ t : TypeKind, t.ordinal = ordinal ∧ t.kind = k := by
    rw [ofOrdinal, Option.map_eq_some_iff]
    exact exists_congr fun t => and_congr_left' TypeKind.ofOrdinal?_eq_some_iff
  cases h : TypeKind.ofOrdinal? ordinal with
  | none =>
    have hne := TypeKind.ordinal_ne_of_ofOrdinal?_eq_none h
    have hsize : (ofOrdinal offset ordinal).size = 0 := by simp [size, ofOrdinal, h]
    refine ⟨hkind, ?_, ?_, ?_⟩ <;> rw [hsize]
    · exact Nat.zero_le 2
    · exact iff_of_false (by decide) (not_or_intro (hne _).symm (hne _).symm)
    · exact iff_of_true rfl (Or.inr hne)
  | some t =>
    obtain rfl := TypeKind.ofOrdinal?_eq_some_iff.mp h
    have hsize : (ofOrdinal offset t.ordinal).size = t.slots.getD 0 := by simp [size, ofOrdinal, h]
    refine ⟨hkind, ?_, ?_, ?_⟩ <;> rw [hsize]
    · cases t <;> decide
    · cases t <;> decide
    · rw [or_iff_left fun hne => hne t rfl]
      cases t <;> decide

end Step

/-! ### Steps end to end -/

/-- The steps lie end to end: the first begins at slot `start`, each of the others where the one
before it ends, and the last ends at slot `stop`. -/
inductive Tiles : ℕ → List Step → ℕ → Prop where
  | nil (slot : ℕ) : Tiles slot [] slot
  | cons {s : Step} {rest : List Step} {stop : ℕ} :
    Tiles s.stop rest stop → Tiles s.offset (s :: rest) stop

namespace Tiles

variable {start stop : ℕ} {steps : List Step}

theorem le (h : Tiles start steps stop) : start ≤ stop := by
  induction h with
  | nil slot => exact le_rfl
  | @cons s _ _ _ ih => exact s.offset_le_stop.trans ih

theorem le_offset (h : Tiles start steps stop) {t : Step} (ht : t ∈ steps) : start ≤ t.offset := by
  induction h with
  | nil slot => exact absurd ht List.not_mem_nil
  | @cons s _ _ _ ih =>
    rcases List.mem_cons.mp ht with rfl | ht
    · exact le_rfl
    · exact s.offset_le_stop.trans (ih ht)

/-- Of two steps the later one begins where the earlier one ends, or after that. -/
theorem pairwise_stop_le (h : Tiles start steps stop) :
    steps.Pairwise fun s t => s.stop ≤ t.offset := by
  induction h with
  | nil slot => exact List.Pairwise.nil
  | cons hrest ih => exact List.pairwise_cons.mpr ⟨fun t => hrest.le_offset, ih⟩

/-- **No slot belongs to two steps.** -/
theorem pairwise_disjoint (h : Tiles start steps stop) :
    steps.Pairwise fun s t => Disjoint s.range t.range :=
  h.pairwise_stop_le.imp Step.disjoint_range

/-- **Every slot in between belongs to a step**, and no other slot does. The induction is on the
tiling: the range of the first step ends where those of the rest begin. -/
theorem iUnion_range (h : Tiles start steps stop) :
    ⋃ s ∈ steps, s.range = Set.Ico start stop := by
  induction h with
  | nil slot => simp
  | @cons s rest stop hrest ih =>
    simp only [List.mem_cons, Set.iUnion_iUnion_eq_or_left]
    rw [ih, Step.range, Set.Ico_union_Ico_eq_Ico s.offset_le_stop hrest.le]

end Tiles

/-! ### Frames -/

/-- The same frame, `n` slots further up. -/
def shift (n : ℕ) (f : Frame) : Frame :=
  { steps := f.steps.map (Step.shift n), total := n + f.total }

theorem tiles_layoutFrom (offset : ℕ) (ordinals : List ℕ) :
    Tiles offset (layoutFrom offset ordinals).steps (layoutFrom offset ordinals).total := by
  induction ordinals generalizing offset with
  | nil => exact .nil offset
  | cons ordinal rest ih => exact .cons (s := Step.ofOrdinal offset ordinal) (ih _)

theorem forall₂_isFor_layoutFrom (offset : ℕ) (ordinals : List ℕ) :
    List.Forall₂ Step.IsFor (layoutFrom offset ordinals).steps ordinals := by
  induction ordinals generalizing offset with
  | nil => exact .nil
  | cons ordinal rest ih => exact .cons (Step.isFor_ofOrdinal offset ordinal) (ih _)

/-- Laid out from a later slot, a list of types has the same frame further up. -/
theorem layoutFrom_add (n offset : ℕ) (ordinals : List ℕ) :
    layoutFrom (n + offset) ordinals = (layoutFrom offset ordinals).shift n := by
  induction ordinals generalizing offset with
  | nil => rfl
  | cons ordinal rest ih =>
    -- a step does not look at its offset
    have hstep : Step.ofOrdinal (n + offset) ordinal = (Step.ofOrdinal offset ordinal).shift n :=
      rfl
    rw [layoutFrom, hstep, Step.stop_shift, ih]
    rfl

/-- What comes after a list of types is laid out from the total of their frame on. -/
theorem layoutFrom_append (offset : ℕ) (xs ys : List ℕ) :
    layoutFrom offset (xs ++ ys) =
      { steps := (layoutFrom offset xs).steps ++
          (layoutFrom (layoutFrom offset xs).total ys).steps,
        total := (layoutFrom (layoutFrom offset xs).total ys).total } := by
  induction xs generalizing offset with
  | nil => rfl
  | cons ordinal rest ih =>
    rw [List.cons_append, layoutFrom, ih]
    rfl

/-- **The frame of two lists of types** is that of the first, with that of the second on top. So a
frame that grows keeps the places of the types that it has. -/
theorem layout_append (xs ys : List ℕ) :
    layout (xs ++ ys) =
      { steps := (layout xs).steps ++ (layout ys).steps.map (Step.shift (layout xs).total),
        total := (layout xs).total + (layout ys).total } := by
  have hys : layoutFrom (layout xs).total ys = (layout ys).shift (layout xs).total :=
    layoutFrom_add (layout xs).total 0 ys
  rw [layout, layoutFrom_append, ← layout, hys, shift]

/-- A frame takes the slots of its types. -/
theorem total_layoutFrom (offset : ℕ) (ordinals : List ℕ) :
    (layoutFrom offset ordinals).total =
      offset + (ordinals.map fun n => (Step.ofOrdinal 0 n).size).sum := by
  induction ordinals generalizing offset with
  | nil => rfl
  | cons ordinal rest ih =>
    rw [layoutFrom, ih, List.map_cons, List.sum_cons, ← Nat.add_assoc]
    rfl

/-- The order of types does not matter to how many slots they take. -/
theorem total_layout_eq_of_perm {xs ys : List ℕ} (h : xs.Perm ys) :
    (layout xs).total = (layout ys).total := by
  rw [layout, layout, total_layoutFrom, total_layoutFrom, (h.map _).sum_eq]

/-- **Frames are tiled by their steps.** The steps of a frame are those of its types in order; they
lie end to end, so that no slot belongs to two of them and those below the total are just the slots
that belong to one. A list of types on top of another has the same steps, further up by the total of
the other. Lists of the same types have the same total. -/
theorem layout_tiles (xs ys : List ℕ) :
    List.Forall₂ Step.IsFor (layout xs).steps xs ∧
    Tiles 0 (layout xs).steps (layout xs).total ∧
    ((layout xs).steps.Pairwise fun s t => Disjoint s.range t.range) ∧
    ⋃ s ∈ (layout xs).steps, s.range = Set.Ico 0 (layout xs).total ∧
    (layout (xs ++ ys)).steps =
      (layout xs).steps ++ (layout ys).steps.map (Step.shift (layout xs).total) ∧
    (layout (xs ++ ys)).total = (layout xs).total + (layout ys).total ∧
    (xs.Perm ys → (layout xs).total = (layout ys).total) := by
  have htiles := tiles_layoutFrom 0 xs
  refine ⟨forall₂_isFor_layoutFrom 0 xs, htiles, htiles.pairwise_disjoint, htiles.iUnion_range,
    ?_, ?_, total_layout_eq_of_perm⟩
  · rw [layout_append]
  · rw [layout_append]

/-- A long, nothing, an array, an unknown type and a double take five slots in either order. -/
theorem layout_tiles_wide :
    [7, 0, 12, 200, 9].Perm [200, 9, 0, 7, 12] ∧ (layout [200, 9, 0, 7, 12]).total = 5 ∧
      4 ∈ ⋃ s ∈ (layout [7, 0, 12, 200, 9]).steps, s.range := by
  have hperm : [7, 0, 12, 200, 9].Perm [200, 9, 0, 7, 12] := by decide
  obtain ⟨-, -, -, hcover, -, -, htotal⟩ := layout_tiles [7, 0, 12, 200, 9] [200, 9, 0, 7, 12]
  refine ⟨hperm, (htotal hperm).symm, ?_⟩
  rw [hcover]
  decide

end Frame

end ConstFold
