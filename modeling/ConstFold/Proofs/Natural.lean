import ConstFold.Natural
import Mathlib.Tactic.Ring

/-!
# Numerals read back

A numeral is written from its last digit down, and read from its first digit up, with what has been
read so far carried along. So the statement that goes through by induction is about reading a
numeral *after* something else (`readFrom?_write`); the numeral itself is the case that nothing has
been read.

## Main results

* `read?_write`, `readInt?_writeInt` — what is written is read back
* `isDigit_of_mem_write` — the decimal numeral of a natural has digits only
* `lt_pow_length_write`, `pow_length_write_le` — how many digits it has
* `head?_write_ne`, `getLast?_write` — it has no leading zero, and what its last digit is
-/

namespace ConstFold

namespace Radix

/-! ### Digits -/

theorem digit?_digitChar {base d : ℕ} (hbase : base ≤ 16) (hd : d < base) :
    digit? base (Nat.digitChar d) = some d := by
  have hvalue : ∀ d < 16, ∀ base ≤ 16, d < base → digit? base (Nat.digitChar d) = some d := by
    decide
  exact hvalue d (by omega) base hbase hd

theorem isDigit_digitChar {d : ℕ} (hd : d < 10) : (Nat.digitChar d).isDigit = true := by
  have hdigit : ∀ d < 10, (Nat.digitChar d).isDigit = true := by decide
  exact hdigit d hd

/-! ### Writing, by the last digit -/

theorem write_of_lt {base n : ℕ} (h : n < base) : write base n = [Nat.digitChar n] := by
  rw [write, digits, if_pos (Or.inl h), List.map_singleton]

theorem write_of_le {base n : ℕ} (hbase : 2 ≤ base) (h : base ≤ n) :
    write base n = write base (n / base) ++ [Nat.digitChar (n % base)] := by
  rw [write, digits, if_neg (by omega), List.map_append, List.map_singleton, ← write]

/-- What holds of one digit, and stays when a digit is put behind, holds of every numeral. -/
theorem write_induction {base : ℕ} (hbase : 2 ≤ base) {motive : ℕ → List Char → Prop}
    (digit : ∀ n < base, motive n [Nat.digitChar n])
    (snoc : ∀ n, base ≤ n → motive (n / base) (write base (n / base)) →
      motive n (write base (n / base) ++ [Nat.digitChar (n % base)])) (n : ℕ) :
    motive n (write base n) := by
  induction n using Nat.strong_induction_on with
  | _ n ih =>
    rcases Nat.lt_or_ge n base with h | h
    · rw [write_of_lt h]
      exact digit n h
    · rw [write_of_le hbase h]
      exact snoc n h (ih _ (Nat.div_lt_self (by omega) hbase))

theorem write_ne_nil {base : ℕ} (hbase : 2 ≤ base) (n : ℕ) : write base n ≠ [] :=
  write_induction hbase (motive := fun _ s => s ≠ []) (fun _ _ => List.cons_ne_nil _ _)
    (fun _ _ _ => by simp) n

theorem isDigit_of_mem_write (n : ℕ) : ∀ c ∈ write 10 n, c.isDigit = true := by
  refine write_induction (by decide) (motive := fun _ s => ∀ c ∈ s, c.isDigit = true) ?_ ?_ n
  · intro n hn c hc
    rw [List.mem_singleton.mp hc]
    exact isDigit_digitChar hn
  · intro n _ ih c hc
    rcases List.mem_append.mp hc with hc | hc
    · exact ih c hc
    · rw [List.mem_singleton.mp hc]
      exact isDigit_digitChar (Nat.mod_lt _ (by decide))

/-- The last character of the numeral of an integer is a digit. -/
theorem exists_writeInt_eq_append (n : ℤ) :
    ∃ body last, writeInt n = body ++ [last] ∧ last.isDigit = true := by
  have hne := write_ne_nil (show 2 ≤ 10 by decide) n.natAbs
  have hlast := isDigit_of_mem_write _ _ (List.getLast_mem hne)
  have hwrite := List.dropLast_concat_getLast hne
  rw [writeInt]
  split_ifs
  · exact ⟨'-' :: (write 10 n.natAbs).dropLast, _, by rw [List.cons_append, hwrite], hlast⟩
  · exact ⟨_, _, hwrite.symm, hlast⟩

theorem isDigit_of_mem_replicate_zero (k : ℕ) :
    ∀ c ∈ List.replicate k '0', c.isDigit = true := fun c hc => by
  rw [List.eq_of_mem_replicate hc]
  rfl

/-! ### The digits of a numeral -/

/-- As many digits as a numeral has are enough for its number. -/
theorem lt_pow_length_write {base : ℕ} (hbase : 2 ≤ base) (n : ℕ) :
    n < base ^ (write base n).length := by
  refine write_induction hbase (motive := fun n s => n < base ^ s.length) ?_ ?_ n
  · intro n hn
    rwa [List.length_singleton, Nat.pow_one]
  · intro n _ ih
    rw [List.length_append, List.length_singleton, Nat.pow_succ]
    exact (Nat.div_lt_iff_lt_mul (by omega)).mp ih

/-- One digit less is not. -/
theorem pow_length_write_le {base : ℕ} (hbase : 2 ≤ base) {n : ℕ} (hn : 0 < n) :
    base ^ ((write base n).length - 1) ≤ n := by
  refine write_induction hbase (motive := fun n s => 0 < n → base ^ (s.length - 1) ≤ n) ?_ ?_ n hn
  · intro n _ hpos
    exact hpos
  · intro n hle ih _
    have hdiv : 0 < n / base := Nat.div_pos hle (by omega)
    have hlen := List.length_pos_iff.mpr (write_ne_nil hbase (n / base))
    obtain ⟨k, hk⟩ := Nat.exists_eq_add_of_le' hlen
    have hle' := ih hdiv
    rw [hk, Nat.add_sub_cancel, Nat.le_div_iff_mul_le (by omega)] at hle'
    rwa [List.length_append, List.length_singleton, hk, Nat.add_sub_cancel, Nat.pow_succ]

theorem digitCount_eq_length_write (n : ℕ) : digitCount n = (write 10 n).length := by
  fun_induction digitCount n with
  | case1 n h => rw [write_of_lt h, List.length_singleton]
  | case2 n h ih => rw [write_of_le (by decide) (not_lt.mp h), List.length_append, ih,
      List.length_singleton]

theorem digitChar_ne_zero {d : ℕ} (hd : d < 10) (hne : d ≠ 0) : Nat.digitChar d ≠ '0' := by
  have hchar : ∀ d < 10, d ≠ 0 → Nat.digitChar d ≠ '0' := by decide
  exact hchar d hd hne

/-- There is no leading zero. -/
theorem head?_write_ne {n : ℕ} (hn : 0 < n) : (write 10 n).head? ≠ some '0' := by
  refine write_induction (by decide) (motive := fun n s => 0 < n → s.head? ≠ some '0') ?_ ?_ n hn
  · intro n hlt hpos
    simpa using digitChar_ne_zero hlt hpos.ne'
  · intro n hle ih _
    have hne := write_ne_nil (show 2 ≤ 10 by decide) (n / 10)
    obtain ⟨c, s, hwrite⟩ := List.exists_cons_of_ne_nil hne
    have hhead := ih (Nat.div_pos hle (by decide))
    rw [hwrite] at hhead ⊢
    exact hhead

theorem getLast?_write (n : ℕ) : (write 10 n).getLast? = some (Nat.digitChar (n % 10)) := by
  refine write_induction (by decide)
    (motive := fun n s => s.getLast? = some (Nat.digitChar (n % 10))) ?_ ?_ n
  · intro n hn
    simp [Nat.mod_eq_of_lt hn]
  · intro n _ _
    simp

/-! ### Reading -/

theorem readFrom?_append (base acc : ℕ) (s t : List Char) :
    readFrom? base acc (s ++ t) = (readFrom? base acc s).bind fun n => readFrom? base n t := by
  induction s generalizing acc with
  | nil => rfl
  | cons c s ih =>
    rw [List.cons_append, readFrom?, readFrom?]
    cases digit? base c with
    | none => rfl
    | some d => exact ih _

theorem readFrom?_digitChar {base d : ℕ} (hbase : base ≤ 16) (hd : d < base) (acc : ℕ) :
    readFrom? base acc [Nat.digitChar d] = some (acc * base + d) := by
  rw [readFrom?, digit?_digitChar hbase hd]
  rfl

/-- A numeral that is read after `acc` moves `acc` up by its own length. -/
theorem readFrom?_write {base : ℕ} (hlo : 2 ≤ base) (hhi : base ≤ 16) (acc n : ℕ) :
    readFrom? base acc (write base n) = some (acc * base ^ (write base n).length + n) := by
  refine write_induction hlo
    (motive := fun n s => readFrom? base acc s = some (acc * base ^ s.length + n)) ?_ ?_ n
  · intro n hn
    rw [readFrom?_digitChar hhi hn, List.length_singleton, Nat.pow_one]
  · intro n _ ih
    have hmod : n % base < base := Nat.mod_lt _ (by omega)
    have hdiv := Nat.div_add_mod' n base
    rw [readFrom?_append, ih, Option.bind_some, readFrom?_digitChar hhi hmod, List.length_append,
      List.length_singleton, Nat.pow_succ, Nat.add_mul, Nat.add_assoc, hdiv, Nat.mul_assoc]

theorem readFrom?_replicate_zero (acc k : ℕ) :
    readFrom? 10 acc (List.replicate k '0') = some (acc * 10 ^ k) := by
  induction k generalizing acc with
  | zero => simp [readFrom?]
  | succ k ih =>
    have hzero : digit? 10 '0' = some 0 := by decide
    rw [List.replicate_succ, readFrom?, hzero]
    simp only [Nat.add_zero]
    rw [ih, Nat.pow_succ, Nat.mul_assoc, Nat.mul_comm 10]

theorem read?_eq_readFrom? {base : ℕ} {s : List Char} (h : s ≠ []) :
    read? base s = readFrom? base 0 s := by
  cases s with
  | nil => exact absurd rfl h
  | cons c s => rfl

/-- **A numeral is read back.** -/
theorem read?_write {base : ℕ} (hlo : 2 ≤ base) (hhi : base ≤ 16) (n : ℕ) :
    read? base (write base n) = some n := by
  rw [read?_eq_readFrom? (write_ne_nil hlo n), readFrom?_write hlo hhi, Nat.zero_mul, Nat.zero_add]

/-- Zeros behind a numeral count. -/
theorem read?_write_append_zeros (n k : ℕ) :
    read? 10 (write 10 n ++ List.replicate k '0') = some (n * 10 ^ k) := by
  have hne : write 10 n ++ List.replicate k '0' ≠ [] := by
    simp [write_ne_nil (show 2 ≤ 10 by decide) n]
  rw [read?_eq_readFrom? hne, readFrom?_append, readFrom?_write (by decide) (by decide),
    Option.bind_some, readFrom?_replicate_zero, Nat.zero_mul, Nat.zero_add]

/-- Zeros in front of it do not. -/
theorem read?_zeros_append_write (n k : ℕ) :
    read? 10 (List.replicate k '0' ++ write 10 n) = some n := by
  have hne : List.replicate k '0' ++ write 10 n ≠ [] := by
    simp [write_ne_nil (show 2 ≤ 10 by decide) n]
  rw [read?_eq_readFrom? hne, readFrom?_append, readFrom?_replicate_zero, Option.bind_some,
    readFrom?_write (by decide) (by decide), Nat.zero_mul, Nat.zero_mul, Nat.zero_add]

/-! ### Integers -/

/-- A text that begins with a digit has no sign. -/
theorem readInt?_eq_read? {s : List Char} (h : ∀ c ∈ s, c.isDigit = true) :
    readInt? s = (read? 10 s).map Int.ofNat := by
  unfold readInt?
  split
  · exact absurd (h '-' List.mem_cons_self) (by decide)
  · exact absurd (h '+' List.mem_cons_self) (by decide)
  · rfl

theorem readInt?_writeInt (n : ℤ) : readInt? (writeInt n) = some n := by
  have hread := read?_write (show 2 ≤ 10 by decide) (by decide) n.natAbs
  rw [writeInt]
  split_ifs with hn
  · have habs : -(n.natAbs : ℤ) = n := by omega
    rw [readInt?, hread]
    exact congrArg some habs
  · have habs : (n.natAbs : ℤ) = n := by omega
    rw [readInt?_eq_read? (isDigit_of_mem_write _), hread]
    exact congrArg some habs

end Radix

end ConstFold
