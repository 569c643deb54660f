import ConstFold.Decimal.Numeral
import ConstFold.Proofs.Decimal.Basic
import ConstFold.Proofs.Natural

/-!
# Numerals of decimals read back

A numeral has up to three parts: digits, digits after a point, and an exponent. All five layouts
that are written, three positional and two scientific, are `Parts`, and they differ in nothing but
where the point stands. So there is one statement about reading, `readUnsigned?_text`, and what
remains for each layout is to say what its parts are (`exists_partsOf_write`).

The digits and the exponent that are read need not be those of the decimal: zeros that only fill
up to the point are read as digits. It is the number that comes back.

## Main definitions

* `Numeral.Parts` — the parts of a numeral, with `Parts.text`
* `Numeral.integralParts`, `Numeral.mixedParts`, `Numeral.fractionalParts`,
  `Numeral.scientificParts` — the parts of what is written

## Main results

* `exists_write_eq_append` — the shape of a numeral
* `readUnsigned?_write` — the number of a numeral is that of the decimal written
-/

namespace ConstFold

namespace Numeral

/-- The parts of a numeral: digits, digits after a point, and the power of ten that the point is
moved by. At least one of the last two is there, which tells the numeral from one of an integer. -/
structure Parts where
  whole : List Char
  fraction : List Char
  exponent : Option ℤ
  isDigit_whole : ∀ c ∈ whole, c.isDigit = true
  isDigit_fraction : ∀ c ∈ fraction, c.isDigit = true
  whole_ne_nil : whole ≠ []
  exponent_ne_none : fraction = [] → exponent ≠ none

namespace Parts

/-- The point and the digits after it. -/
def fractionText (p : Parts) : List Char :=
  if p.fraction = [] then [] else '.' :: p.fraction

/-- The exponent with its mark. -/
def exponentText (p : Parts) : List Char :=
  match p.exponent with
  | none => []
  | some e => 'e' :: Radix.writeInt e

/-- The numeral that has the parts. -/
def text (p : Parts) : List Char :=
  p.whole ++ (p.fractionText ++ p.exponentText)

/-- The exponent of the last digit. -/
def lastExponent (p : Parts) : ℤ :=
  p.exponent.getD 0 - p.fraction.length

/-! ### Reading the parts -/

theorem readExponent?_exponentText (p : Parts) :
    readExponent? p.exponentText = some (p.exponent.getD 0) := by
  rw [exponentText]
  cases p.exponent with
  | none => rfl
  | some e => exact Radix.readInt?_writeInt e

/-- Digits stop at an exponent. -/
theorem span_exponentText {s : List Char} (h : ∀ c ∈ s, c.isDigit = true) (p : Parts) :
    (s ++ p.exponentText).takeWhile Char.isDigit = s ∧
      (s ++ p.exponentText).dropWhile Char.isDigit = p.exponentText := by
  rw [List.takeWhile_append_of_pos h, List.dropWhile_append_of_pos h, exponentText]
  cases p.exponent with
  | none => simp
  | some e => simp

/-- Digits stop at a point, too. -/
theorem span_text (p : Parts) :
    p.text.takeWhile Char.isDigit = p.whole ∧
      p.text.dropWhile Char.isDigit = p.fractionText ++ p.exponentText := by
  rw [text]
  by_cases h : p.fraction = []
  · rw [fractionText, if_pos h, List.nil_append]
    exact span_exponentText p.isDigit_whole p
  · rw [fractionText, if_neg h, List.takeWhile_append_of_pos p.isDigit_whole,
      List.dropWhile_append_of_pos p.isDigit_whole]
    simp

theorem readFraction?_fractionText (p : Parts) :
    readFraction? (p.fractionText ++ p.exponentText) = some (p.fraction, p.exponentText) := by
  by_cases h : p.fraction = []
  · rw [fractionText, if_pos h, List.nil_append, h, exponentText]
    cases p.exponent <;> rfl
  · obtain ⟨htake, hdrop⟩ := span_exponentText p.isDigit_fraction p
    rw [fractionText, if_neg h, List.cons_append]
    simp only [readFraction?, htake, hdrop]

/-- **A numeral is read by its parts.** All forms in which a decimal is written are parts, hence
reading is treated once for all of them. -/
theorem readUnsigned?_text (p : Parts) :
    readUnsigned? p.text
      = (Radix.read? 10 (p.whole ++ p.fraction)).map fun c => ⟨c, p.lastExponent⟩ := by
  obtain ⟨htake, hdrop⟩ := p.span_text
  have hwhole : p.whole.isEmpty = false := by simpa using p.whole_ne_nil
  rw [readUnsigned?, htake, hdrop, p.readFraction?_fractionText]
  simp only [Option.bind_eq_bind, Option.bind_some, p.readExponent?_exponentText, hwhole]
  cases Radix.read? 10 (p.whole ++ p.fraction) <;> rfl

/-! ### The shape of the text -/

/-- Something follows the leading digits: a point or the mark of an exponent comes first, and a
digit comes last. -/
theorem exists_mark (p : Parts) : ∃ mark body last,
    p.fractionText ++ p.exponentText = mark :: (body ++ [last]) ∧
      (mark = '.' ∨ mark = 'e') ∧ last.isDigit = true := by
  rcases hexp : p.exponent with _ | e
  · have hne : p.fraction ≠ [] := fun h => p.exponent_ne_none h hexp
    refine ⟨'.', p.fraction.dropLast, p.fraction.getLast hne, ?_, Or.inl rfl,
      p.isDigit_fraction _ (List.getLast_mem hne)⟩
    rw [exponentText, hexp, fractionText, if_neg hne, List.append_nil,
      List.dropLast_concat_getLast]
  · obtain ⟨body, last, hbody, hlast⟩ := Radix.exists_writeInt_eq_append e
    have hexponent : p.exponentText = 'e' :: (body ++ [last]) := by
      simp only [exponentText, hexp, hbody]
    rw [hexponent]
    by_cases h : p.fraction = []
    · exact ⟨'e', body, last, by rw [fractionText, if_pos h, List.nil_append], Or.inr rfl, hlast⟩
    · refine ⟨'.', p.fraction ++ 'e' :: body, last, ?_, Or.inl rfl, hlast⟩
      rw [fractionText, if_neg h]
      simp

end Parts

/-! ### The parts of what is written -/

/-- A text is the numeral of some parts, and these stand for the decimal: the digits are those of
its coefficient with `zeros` zeros behind them, for which the exponent makes up. -/
structure PartsOf (d : Decimal) (s : List Char) (p : Parts) (zeros : ℕ) : Prop where
  text_eq : p.text = s
  read_digits : Radix.read? 10 (p.whole ++ p.fraction) = some (d.coefficient * 10 ^ zeros)
  lastExponent_eq : p.lastExponent = d.exponent - zeros

section

variable (d : Decimal)

/-- The digits of the coefficient, as all layouts use them. -/
theorem digits_coefficient :
    (∀ c ∈ Radix.write 10 d.coefficient, c.isDigit = true) ∧ Radix.write 10 d.coefficient ≠ [] ∧
      Radix.read? 10 (Radix.write 10 d.coefficient) = some d.coefficient :=
  ⟨Radix.isDigit_of_mem_write _, Radix.write_ne_nil (by decide) _,
    Radix.read?_write (by decide) (by decide) _⟩

/-- How many digits are in front of the point. Below zero there are zeros behind it instead. -/
def wholeLength : ℤ :=
  d.exponent + (Radix.write 10 d.coefficient).length

/-- The point comes after the digits, and after zeros. -/
def integralParts : Parts where
  whole := Radix.write 10 d.coefficient ++ List.replicate d.exponent.toNat '0'
  fraction := ['0']
  exponent := none
  isDigit_whole := List.forall_mem_append.mpr
    ⟨(digits_coefficient d).1, Radix.isDigit_of_mem_replicate_zero _⟩
  isDigit_fraction := Radix.isDigit_of_mem_replicate_zero 1
  whole_ne_nil := List.append_ne_nil_of_left_ne_nil (digits_coefficient d).2.1 _
  exponent_ne_none := fun h => absurd h (List.cons_ne_nil _ _)

theorem partsOf_integralParts (h : 0 ≤ d.exponent) :
    PartsOf d (Radix.write 10 d.coefficient ++ List.replicate d.exponent.toNat '0' ++ ['.', '0'])
      (integralParts d) (d.exponent.toNat + 1) where
  text_eq := by simp [integralParts, Parts.text, Parts.fractionText, Parts.exponentText]
  read_digits := by
    rw [← Radix.read?_write_append_zeros, List.replicate_succ', ← List.append_assoc]
    rfl
  lastExponent_eq := by
    simp only [integralParts, Parts.lastExponent, Option.getD_none, List.length_singleton]
    omega

section

variable (hexp : ¬ 0 ≤ d.exponent) (hwhole : 0 < wholeLength d)
include hexp hwhole

theorem drop_digits_ne_nil : (Radix.write 10 d.coefficient).drop (wholeLength d).toNat ≠ [] := by
  rw [wholeLength] at *
  rw [ne_eq, List.drop_eq_nil_iff]
  omega

/-- The point comes between the digits. -/
def mixedParts : Parts where
  whole := (Radix.write 10 d.coefficient).take (wholeLength d).toNat
  fraction := (Radix.write 10 d.coefficient).drop (wholeLength d).toNat
  exponent := none
  isDigit_whole := fun c hc => (digits_coefficient d).1 c (List.mem_of_mem_take hc)
  isDigit_fraction := fun c hc => (digits_coefficient d).1 c (List.mem_of_mem_drop hc)
  whole_ne_nil := by
    rw [ne_eq, List.take_eq_nil_iff]
    exact not_or.mpr ⟨by omega, (digits_coefficient d).2.1⟩
  exponent_ne_none := fun h => absurd h (drop_digits_ne_nil d hexp hwhole)

theorem partsOf_mixedParts :
    PartsOf d ((Radix.write 10 d.coefficient).take (wholeLength d).toNat
        ++ '.' :: (Radix.write 10 d.coefficient).drop (wholeLength d).toNat)
      (mixedParts d hexp hwhole) 0 where
  text_eq := by
    simp [mixedParts, Parts.text, Parts.fractionText, Parts.exponentText,
      drop_digits_ne_nil d hexp hwhole]
  read_digits := by
    simp only [mixedParts]
    rw [List.take_append_drop, (digits_coefficient d).2.2, Nat.pow_zero, Nat.mul_one]
  lastExponent_eq := by
    rw [wholeLength] at hwhole
    simp only [mixedParts, Parts.lastExponent, Option.getD_none, List.length_drop, wholeLength]
    omega

end

/-- The point comes before the digits, and before zeros. -/
def fractionalParts : Parts where
  whole := ['0']
  fraction := List.replicate (-wholeLength d).toNat '0' ++ Radix.write 10 d.coefficient
  exponent := none
  isDigit_whole := Radix.isDigit_of_mem_replicate_zero 1
  isDigit_fraction := List.forall_mem_append.mpr
    ⟨Radix.isDigit_of_mem_replicate_zero _, (digits_coefficient d).1⟩
  whole_ne_nil := List.cons_ne_nil _ _
  exponent_ne_none := fun h =>
    absurd h (List.append_ne_nil_of_right_ne_nil _ (digits_coefficient d).2.1)

theorem partsOf_fractionalParts (hwhole : wholeLength d ≤ 0) :
    PartsOf d ('0' :: '.' :: List.replicate (-wholeLength d).toNat '0'
      ++ Radix.write 10 d.coefficient) (fractionalParts d) 0 where
  text_eq := by
    simp [fractionalParts, Parts.text, Parts.fractionText, Parts.exponentText,
      (digits_coefficient d).2.1]
  read_digits := by
    have hzeros := Radix.read?_zeros_append_write d.coefficient ((-wholeLength d).toNat + 1)
    rw [List.replicate_succ, List.cons_append] at hzeros
    simp only [fractionalParts]
    rw [List.singleton_append, hzeros, Nat.pow_zero, Nat.mul_one]
  lastExponent_eq := by
    rw [wholeLength] at hwhole
    simp only [fractionalParts, Parts.lastExponent, Option.getD_none, List.length_append,
      List.length_replicate, wholeLength]
    omega

/-- The point comes after the leading digit, and the exponent says by how much to move it. -/
def scientificParts : Parts where
  whole := (Radix.write 10 d.coefficient).take 1
  fraction := (Radix.write 10 d.coefficient).drop 1
  exponent := some (leadingExponent d)
  isDigit_whole := fun c hc => (digits_coefficient d).1 c (List.mem_of_mem_take hc)
  isDigit_fraction := fun c hc => (digits_coefficient d).1 c (List.mem_of_mem_drop hc)
  whole_ne_nil := by
    rw [ne_eq, List.take_eq_nil_iff]
    exact not_or.mpr ⟨Nat.one_ne_zero, (digits_coefficient d).2.1⟩
  exponent_ne_none := fun _ => Option.some_ne_none _

theorem partsOf_scientificParts : PartsOf d (scientific d) (scientificParts d) 0 where
  text_eq := by
    obtain ⟨c, rest, hwrite⟩ := List.exists_cons_of_ne_nil (digits_coefficient d).2.1
    simp only [scientificParts, Parts.text, Parts.fractionText, Parts.exponentText, scientific,
      hwrite]
    cases rest <;> simp
  read_digits := by
    simp only [scientificParts]
    rw [List.take_append_drop, (digits_coefficient d).2.2, Nat.pow_zero, Nat.mul_one]
  lastExponent_eq := by
    have hlen := List.length_pos_iff.mpr (digits_coefficient d).2.1
    simp only [scientificParts, Parts.lastExponent, Option.getD_some, List.length_drop,
      leadingExponent]
    omega

theorem exists_partsOf_write : ∃ p zeros, PartsOf d (write d) p zeros := by
  simp only [write, positional]
  split_ifs with _ hexp hwhole
  · exact ⟨_, _, partsOf_integralParts d hexp⟩
  · exact ⟨_, _, partsOf_mixedParts d hexp hwhole⟩
  · exact ⟨_, _, partsOf_fractionalParts d (not_lt.mp hwhole)⟩
  · exact ⟨_, _, partsOf_scientificParts d⟩

/-- A numeral is digits, then a point or the mark of an exponent, and a digit is last. -/
theorem exists_write_eq_append : ∃ whole mark body last,
    write d = whole ++ mark :: (body ++ [last]) ∧ (∀ c ∈ whole, c.isDigit = true) ∧ whole ≠ [] ∧
      (mark = '.' ∨ mark = 'e') ∧ last.isDigit = true := by
  obtain ⟨p, -, htext, -, -⟩ := exists_partsOf_write d
  obtain ⟨mark, body, last, hrest, hmark, hlast⟩ := p.exists_mark
  exact ⟨p.whole, mark, body, last, by rw [← htext, Parts.text, hrest], p.isDigit_whole,
    p.whole_ne_nil, hmark, hlast⟩

/-- **The number of a numeral is that of the decimal written.** -/
theorem readUnsigned?_write : ∃ e, readUnsigned? (write d) = some e ∧ e.toRat = d.toRat := by
  obtain ⟨p, zeros, htext, hdigits, hlast⟩ := exists_partsOf_write d
  refine ⟨⟨d.coefficient * 10 ^ zeros, p.lastExponent⟩, ?_, ?_⟩
  · rw [← htext, p.readUnsigned?_text, hdigits, Option.map_some]
  · rw [Decimal.toRat, hlast, zpow_sub₀ (by decide), zpow_natCast, Decimal.toRat]
    push_cast
    field_simp

end

end Numeral

end ConstFold
