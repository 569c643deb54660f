import ConstFold.Pool
import ConstFold.Proofs.Value.Identity
import Mathlib.Data.List.Induction
import Mathlib.Data.Nat.Basic
import Mathlib.Order.Basic

/-!
# Pools and their histories

What a pool holds is determined by what was asked of it. The *history* of a run is the list of its
steps with their answers. A constant is in the pool under an index exactly if the latest step that
could have changed this, one that interns or removes an identical constant, interned it and answered
that index (`find?_after_iff`).

Indices are given in order: the next one is past all that were ever given, and that stays true when
constants are removed, since removing does not touch it. So no index is given twice.

## Main definitions

* `Pool.after`, `Pool.history` — where a run ends, and what it answered
* `Pool.Interned` — the pool holds a constant, as the history tells
* `Pool.Inserts` — a step of a run gives a new index

## Main results

* `find?_after_iff` — the pool is what the history tells
* `wellFormed_after` — indices tell constants apart and lie below the next one
* `run_indices` — what a pool guarantees after every run
-/

namespace ConstFold

namespace Pool

/-! ### Runs -/

def after (p : Pool) (steps : List Step) : Pool :=
  steps.foldl (fun p s => (p.step s).2) p

/-- The steps of a run, each with its answer. -/
def history (p : Pool) (steps : List Step) : List (Step × Option ℕ) :=
  steps.zip ((p.run steps).map Prod.fst)

theorem after_append (p : Pool) (steps rest : List Step) :
    p.after (steps ++ rest) = (p.after steps).after rest :=
  List.foldl_append ..

theorem length_run (p : Pool) (steps : List Step) : (p.run steps).length = steps.length := by
  induction steps generalizing p with
  | nil => rfl
  | cons s rest ih => rw [run, List.length_cons, ih, List.length_cons]

/-- A run goes on from the pool that it has reached. -/
theorem run_concat (p : Pool) (steps : List Step) (s : Step) :
    p.run (steps ++ [s]) = p.run steps ++ [(p.after steps).step s] := by
  induction steps generalizing p with
  | nil => rfl
  | cons s rest ih => exact congrArg (_ :: ·) (ih _)

theorem history_concat (p : Pool) (steps : List Step) (s : Step) :
    p.history (steps ++ [s]) = p.history steps ++ [(s, ((p.after steps).step s).1)] := by
  have hlen : steps.length = ((p.run steps).map Prod.fst).length := by
    rw [List.length_map, length_run]
  rw [history, run_concat, List.map_append, List.zip_append hlen]
  rfl

/-! ### What a step does -/

theorem intern_fst (p : Pool) (v : Value) : (p.intern v).1 = (p.find? v).getD p.next := by
  cases h : p.find? v <;> simp only [intern, h, Option.getD_some, Option.getD_none]

theorem next_intern (p : Pool) (v : Value) :
    (p.intern v).2.next = if (p.find? v).isSome then p.next else p.next + 1 := by
  cases h : p.find? v <;> simp [intern, h]

theorem find?_intern (p : Pool) (v w : Value) :
    (p.intern v).2.find? w = if v == w then some (p.intern v).1 else p.find? w := by
  cases h : p.find? v with
  | some index =>
    simp only [intern, h]
    split_ifs with hvw
    · rw [← eq_of_beq hvw, h]
    · rfl
  | none =>
    simp only [intern, h]
    exact Std.HashMap.getElem?_insert

theorem find?_remove (p : Pool) (v w : Value) :
    (p.remove v).2.find? w = if v == w then none else p.find? w :=
  Std.HashMap.getElem?_erase

@[simp]
theorem next_remove (p : Pool) (v : Value) : (p.remove v).2.next = p.next :=
  rfl

theorem next_le_step (p : Pool) (s : Step) : p.next ≤ (p.step s).2.next := by
  cases s with
  | intern v =>
    have h := next_intern p v
    simp only [step]
    split_ifs at h <;> omega
  | find v => exact le_rfl
  | remove v => exact le_rfl

theorem next_le_after (p : Pool) (steps : List Step) : p.next ≤ (p.after steps).next := by
  induction steps generalizing p with
  | nil => exact le_rfl
  | cons s rest ih => exact (next_le_step p s).trans (ih _)

/-! ### Indices -/

/-- The indices in a pool tell its constants apart, and all lie below the one that comes next. So
the index that a new constant is put under is none that is in use. -/
structure WellFormed (p : Pool) : Prop where
  lt_next {v : Value} {i : ℕ} : p.find? v = some i → i < p.next
  injective {v w : Value} {i : ℕ} : p.find? v = some i → p.find? w = some i → v = w

@[simp]
theorem find?_empty (v : Value) : empty.find? v = none :=
  Std.HashMap.getElem?_empty

@[simp]
theorem next_empty : empty.next = 0 :=
  rfl

theorem wellFormed_empty : empty.WellFormed where
  lt_next h := by simp at h
  injective h := by simp at h

variable {p : Pool}

theorem WellFormed.intern (hp : p.WellFormed) (v : Value) : (p.intern v).2.WellFormed := by
  cases hv : p.find? v with
  | some index => simpa only [Pool.intern, hv] using hp
  | none =>
    have hnext : (p.intern v).2.next = p.next + 1 := by simp [next_intern, hv]
    -- the new index is the next one, so no constant that was there has it
    have hfind (w : Value) :
        (p.intern v).2.find? w = if v == w then some p.next else p.find? w := by
      rw [find?_intern, intern_fst, hv, Option.getD_none]
    refine ⟨fun {w i} h => ?_, fun {w w' i} h h' => ?_⟩
    · rw [hfind] at h
      rw [hnext]
      split_ifs at h with hvw
      · cases h
        omega
      · exact (hp.lt_next h).trans (Nat.lt_succ_self _)
    · rw [hfind] at h h'
      split_ifs at h h' with hvw hvw'
      · rw [← eq_of_beq hvw, ← eq_of_beq hvw']
      · cases h
        exact absurd (hp.lt_next h') (lt_irrefl _)
      · cases h'
        exact absurd (hp.lt_next h) (lt_irrefl _)
      · exact hp.injective h h'

theorem WellFormed.remove (hp : p.WellFormed) (v : Value) : (p.remove v).2.WellFormed := by
  have hfind {w : Value} {i : ℕ} (h : (p.remove v).2.find? w = some i) : p.find? w = some i := by
    rw [find?_remove] at h
    split_ifs at h
    exact h
  exact ⟨fun h => hp.lt_next (hfind h), fun h h' => hp.injective (hfind h) (hfind h')⟩

theorem WellFormed.step (hp : p.WellFormed) (s : Step) : (p.step s).2.WellFormed := by
  cases s with
  | intern v => exact hp.intern v
  | find v => exact hp
  | remove v => exact hp.remove v

/-- Indices tell the constants of a pool apart after every run. -/
theorem wellFormed_after (steps : List Step) : (empty.after steps).WellFormed := by
  induction steps using List.reverseRecOn with
  | nil => exact wellFormed_empty
  | append_singleton steps s ih =>
    rw [after_append]
    exact ih.step s

/-! ### The pool as the history tells -/

/-- A step may change whether a pool holds `v`, and under which index. -/
def Step.updates (v : Value) : Step → Bool
  | intern w => w.eqBits v
  | find _ => false
  | remove w => w.eqBits v

/-- The latest step of a history that interned or removed a constant identical to `v` interned it,
and answered the index `i`. -/
def Interned (h : List (Step × Option ℕ)) (v : Value) (i : ℕ) : Prop :=
  ∃ (earlier later : List (Step × Option ℕ)) (w : Value),
    h = earlier ++ (.intern w, some i) :: later ∧ w.eqBits v = true ∧
      ∀ e ∈ later, e.1.updates v = false

theorem not_interned_nil (v : Value) (i : ℕ) : ¬ Interned [] v i := by
  rintro ⟨earlier, later, w, h, -⟩
  simp at h

theorem interned_concat_iff {h : List (Step × Option ℕ)} {s : Step} {a : Option ℕ} {v : Value}
    {i : ℕ} : Interned (h ++ [(s, a)]) v i ↔
      (∃ w, s = .intern w ∧ w.eqBits v = true ∧ a = some i) ∨
        s.updates v = false ∧ Interned h v i := by
  constructor
  · rintro ⟨earlier, later, w, heq, hw, hlater⟩
    -- the new step is the one that interned `v`, or it comes after that one
    induction later using List.reverseRecOn with
    | nil =>
      obtain ⟨-, hlast⟩ := List.append_inj' heq rfl
      cases hlast
      exact .inl ⟨w, rfl, hw, rfl⟩
    | append_singleton later e _ =>
      rw [← List.cons_append, ← List.append_assoc] at heq
      obtain ⟨hinit, hlast⟩ := List.append_inj' heq rfl
      cases hlast
      exact .inr ⟨hlater (s, a) (by simp), earlier, later, w, hinit, hw,
        fun e he => hlater e (List.mem_append_left _ he)⟩
  · rintro (⟨w, rfl, hw, rfl⟩ | ⟨hs, earlier, later, w, rfl, hw, hlater⟩)
    · exact ⟨h, [], w, rfl, hw, by simp⟩
    · refine ⟨earlier, later ++ [(s, a)], w, by simp, hw, fun e he => ?_⟩
      obtain he | he := List.mem_append.mp he
      · exact hlater e he
      · rwa [List.mem_singleton.mp he]

/-- After a step, a pool holds what the step interned, and what it held and the step did not
update. -/
theorem find?_step_iff (p : Pool) (s : Step) (v : Value) (i : ℕ) :
    (p.step s).2.find? v = some i ↔
      (∃ w, s = .intern w ∧ w.eqBits v = true ∧ (p.step s).1 = some i) ∨
        s.updates v = false ∧ p.find? v = some i := by
  cases s with
  | intern w =>
    have h : (p.step (.intern w)).2.find? v = _ := find?_intern p w v
    rw [h]
    cases hw : w == v with
    | true =>
      have hw : w.eqBits v = true := hw
      simp [step, Step.updates, hw]
    | false =>
      have hw : w.eqBits v = false := hw
      simp [Step.updates, hw]
  | find w => simp [step, Step.updates]
  | remove w =>
    have h : (p.step (.remove w)).2.find? v = _ := find?_remove p w v
    rw [h]
    cases hw : w == v with
    | true =>
      have hw : w.eqBits v = true := hw
      simp [Step.updates, hw]
    | false =>
      have hw : w.eqBits v = false := hw
      simp [Step.updates, hw]

/-- **A pool holds what its history tells.** By induction on the steps from the last one: it is the
latest step on a constant that decides whether and where the pool holds it. -/
theorem find?_after_iff (steps : List Step) (v : Value) (i : ℕ) :
    (empty.after steps).find? v = some i ↔ Interned (empty.history steps) v i := by
  induction steps using List.reverseRecOn with
  | nil =>
    rw [after, List.foldl_nil, find?_empty]
    exact iff_of_false (by simp) (not_interned_nil v i)
  | append_singleton steps s ih =>
    rw [after_append, history_concat, interned_concat_iff, ← ih]
    exact find?_step_iff ..

/-! ### Insertions -/

/-- Step `k` of a run on the empty pool interns a constant that is not in the pool, and answers
`i`. -/
def Inserts (steps : List Step) (k i : ℕ) : Prop :=
  ∃ v, (empty.history steps)[k]? = some (.intern v, some i) ∧
    (empty.after (steps.take k)).find? v = none

theorem getElem?_history {p : Pool} {steps : List Step} {k : ℕ} {s : Step} {a : Option ℕ}
    (h : (p.history steps)[k]? = some (s, a)) :
    steps[k]? = some s ∧ a = ((p.after (steps.take k)).step s).1 := by
  induction steps generalizing p k with
  | nil => simp [history] at h
  | cons s' rest ih =>
    cases k with
    | zero =>
      cases h
      exact ⟨rfl, rfl⟩
    | succ k => exact ih h

/-- An insertion takes the next index, which is then past it. -/
theorem Inserts.next_eq {steps : List Step} {k i : ℕ} (h : Inserts steps k i) :
    (empty.after (steps.take k)).next = i ∧ (empty.after (steps.take (k + 1))).next = i + 1 := by
  obtain ⟨v, hk, hv⟩ := h
  obtain ⟨hs, hi⟩ := getElem?_history hk
  have hnext : (empty.after (steps.take k)).next = i := by
    have hi : i = ((empty.after (steps.take k)).intern v).1 := Option.some.inj hi
    rw [hi, intern_fst, hv, Option.getD_none]
  refine ⟨hnext, ?_⟩
  have htake : steps.take (k + 1) = steps.take k ++ [.intern v] := by
    rw [List.take_add_one, hs, Option.toList_some]
  have hstep := next_intern (empty.after (steps.take k)) v
  rw [hv, hnext] at hstep
  rw [htake, after_append]
  exact hstep

theorem Inserts.lt {steps : List Step} {j k i i' : ℕ} (hj : Inserts steps j i)
    (hk : Inserts steps k i') (hjk : j < k) : i < i' := by
  have hsplit : steps.take k = steps.take (j + 1) ++ (steps.take k).drop (j + 1) := by
    conv_lhs => rw [← List.take_append_drop (j + 1) (steps.take k), List.take_take]
    rw [Nat.min_eq_left hjk]
  have hle := next_le_after (empty.after (steps.take (j + 1))) ((steps.take k).drop (j + 1))
  rw [← after_append, ← hsplit, hj.next_eq.2, hk.next_eq.1] at hle
  exact hle

/-- **No index is given twice.** The index that comes next grows with every insertion and is never
set back, not by removals either. -/
theorem Inserts.unique {steps : List Step} {j k i : ℕ} (hj : Inserts steps j i)
    (hk : Inserts steps k i) : j = k := by
  obtain hjk | rfl | hjk := lt_trichotomy j k
  · exact absurd (hj.lt hk hjk) (lt_irrefl i)
  · rfl
  · exact absurd (hk.lt hj hjk) (lt_irrefl i)

/-! ### Size -/

/-- A pool has as many entries as constants that no two of them are identical. -/
theorem exists_size_eq (p : Pool) :
    ∃ live : List Value, live.Pairwise (fun v w => v.eqBits w = false) ∧
      (∀ v, (p.find? v).isSome ↔ ∃ w ∈ live, w.eqBits v = true) ∧ p.size = live.length := by
  refine ⟨p.indices.keys, Std.HashMap.distinct_keys, fun v => ?_, Std.HashMap.length_keys.symm⟩
  rw [find?, ← Std.HashMap.mem_iff_isSome_getElem?, ← Std.HashMap.mem_keys]
  exact ⟨fun h => ⟨v, h, v.eqBits_self⟩, fun ⟨w, hw, hwv⟩ => Value.eqBits_iff_eq.mp hwv ▸ hw⟩

/-! ### Main result -/

/-- **After every run, the pool is what its history tells.** A look-up answers the index of the
latest step that interned or removed an identical constant, if that one interned it; constants have
the same index exactly if they agree in kind and bits; no two insertions give the same index; and
the size is the number of constants interned, up to identity. -/
theorem run_indices (steps : List Step) :
    (∀ v i, ((empty.after steps).step (.find v)).1 = some i ↔
      Interned (empty.history steps) v i) ∧
    (∀ v w i, (empty.after steps).find? v = some i →
      ((empty.after steps).find? w = some i ↔ w.kind = v.kind ∧ w.rawBits = v.rawBits)) ∧
    (∀ j k i, Inserts steps j i → Inserts steps k i → j = k) ∧
    ∃ live : List Value, live.Pairwise (fun v w => v.eqBits w = false) ∧
      (∀ v, (∃ i, Interned (empty.history steps) v i) ↔ ∃ w ∈ live, w.eqBits v = true) ∧
      (empty.after steps).size = live.length := by
  refine ⟨find?_after_iff steps, fun v w i hv => ?_, fun j k i => Inserts.unique, ?_⟩
  · rw [← Value.eqBits_iff_rawBits, Value.eqBits_iff_eq]
    exact ⟨fun hw => (wellFormed_after steps).injective hv hw, fun h => h ▸ hv⟩
  · obtain ⟨live, hdistinct, hmem, hsize⟩ := exists_size_eq (empty.after steps)
    refine ⟨live, hdistinct, fun v => ?_, hsize⟩
    rw [← hmem, Option.isSome_iff_exists]
    exact exists_congr fun i => (find?_after_iff steps v i).symm

/-- The two zeros of the double format are interned, and the positive one is removed and interned
again. -/
private def zeroSteps : List Step :=
  [.intern (.float64 (.ofCode _ false 0)), .intern (.float64 (.ofCode _ true 0)),
    .remove (.float64 (.ofCode _ false 0)), .intern (.float64 (.ofCode _ false 0))]

/-- The zero that is back has a new index. The other zero does not have it, and no other step
inserted a constant under it. -/
theorem run_indices_zeros :
    (empty.after zeroSteps).find? (.float64 (.ofCode _ false 0)) = some 2 ∧
      Interned (empty.history zeroSteps) (.float64 (.ofCode _ false 0)) 2 ∧
      (empty.after zeroSteps).find? (.float64 (.ofCode _ true 0)) ≠ some 2 ∧
      Inserts zeroSteps 3 2 ∧ ∀ k, Inserts zeroSteps k 2 → k = 3 := by
  have hne : (Value.float64 (.ofCode _ false 0) == .float64 (.ofCode _ true 0)) = false := by
    decide
  have hnone : (empty.after (zeroSteps.take 3)).find? (.float64 (.ofCode _ false 0)) = none := by
    simp [zeroSteps, after, step, find?_remove]
  have hnext : ((empty.intern (.float64 (.ofCode _ false 0))).2.intern
      (.float64 (.ofCode _ true 0))).2.next = 2 := by
    simp [next_intern, find?_intern, hne]
  have hfind : (empty.after zeroSteps).find? (.float64 (.ofCode _ false 0)) = some 2 := by
    simp [zeroSteps, after, step, find?_intern, find?_remove, intern_fst, hnext]
  have hinserts : Inserts zeroSteps 3 2 := by
    refine ⟨.float64 (.ofCode _ false 0), ?_, ?_⟩
    · simp [zeroSteps, history, run, step, find?_remove, intern_fst, hnext]
    · exact hnone
  obtain ⟨hhistory, hbits, hunique, -⟩ := run_indices zeroSteps
  refine ⟨hfind, (hhistory _ _).mp hfind, fun h => ?_, hinserts,
    fun k hk => hunique _ _ _ hk hinserts⟩
  exact absurd ((hbits _ _ _ hfind).mp h).2 (by decide)

end Pool

end ConstFold
