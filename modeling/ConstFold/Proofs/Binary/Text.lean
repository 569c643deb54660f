import ConstFold.Decimal.Numeral
import ConstFold.Proofs.Binary.Rounding
import ConstFold.Proofs.Decimal.Form
import ConstFold.Proofs.Decimal.Numeral
import ConstFold.Proofs.Decimal.Shortest

/-!
# The text of data

The text of a datum gives the datum back in the datum's own format, down to the sign of a zero; only
the payload and the sign of a NaN are not in the text. Shortness does not matter for that: it is
enough that the decimal rounds back to the datum, and that a numeral keeps the number of its
decimal.

What it means that a number is a shortest one for a datum is said by `RoundsTo` and by what the
number is, a decimal of so many digits. The search for the shortest decimal knows nothing of that:
it rounds coefficients and exponents, and it leaves the sign aside. The two are the same, since
a number rounds to a finite datum exactly if a decimal of its magnitude rounds to the code of the
datum (`RoundsTo.round_eq`, `roundsTo_of_round_eq`), and a number on the other side of zero is at
least as far from the datum as the one on the same side.

## Main definitions

* `Binary.ofText?` — the datum of a text
* `Binary.quieten` — what of a datum its text tells
* `Binary.IsShortestDecimal` — a number of the fewest digits for a datum, and a nearest one of these
* `Binary.IsShownAs` — what the numeral of a datum is

## Main results

* `ofText?_text` — the text of a datum is read back up to NaNs
* `isShortestDecimal_of_isShortest` — the number of a shortest decimal for the code, with the sign
* `exists_isShownAs` — the numeral of the shortest decimal shows the datum
-/

namespace ConstFold

namespace Binary

def ofText? (f : Format) (s : List Char) : Option (Binary f) :=
  if s = "NaN".toList then some (nan f)
  else if s = "inf".toList then some (infinity f false)
  else if s = "-inf".toList then some (infinity f true)
  else (Numeral.read? s).map fun d => d.2.toBinary f d.1

variable {f : Format}

/-- A datum with every NaN made the canonical one. -/
def quieten (b : Binary f) : Binary f :=
  if b.isNaN then nan f else b

/-! ### The cases of a text -/

theorem text_of_isNaN {b : Binary f} (h : b.isNaN = true) : b.text = "NaN".toList := by
  rw [text, if_pos h]

theorem text_of_isInfinite {b : Binary f} (h : b.isInfinite = true) :
    b.text = if b.negative then "-inf".toList else "inf".toList := by
  rw [text, if_neg (by simp [isNaN_of_isInfinite h]), unsignedText, if_pos h]
  rfl

theorem text_of_isFinite {b : Binary f} (h : b.isFinite = true) :
    b.text = if b.negative then '-' :: Numeral.write (Decimal.shortest f b.code)
      else Numeral.write (Decimal.shortest f b.code) := by
  rw [text, isNaN_of_isFinite h, unsignedText, isInfinite_of_isFinite h]
  rfl

theorem text_quieten (b : Binary f) : b.quieten.text = b.text := by
  rw [quieten]
  split_ifs with h
  · rw [text_of_isNaN h, text_of_isNaN (isNaN_nan f)]
  · rfl

/-- The text of a finite datum has the shape of a numeral behind its sign. -/
theorem exists_text_eq_append {b : Binary f} (h : b.isFinite = true) :
    ∃ whole mark body last, b.text = whole ++ mark :: (body ++ [last]) ∧
      (∀ c ∈ whole, c.isDigit = true ∨ c = '-') ∧ (mark = '.' ∨ mark = 'e') ∧
      last.isDigit = true := by
  obtain ⟨whole, mark, body, last, hwrite, hdigits, -, hmark, hlast⟩ :=
    Numeral.exists_write_eq_append (Decimal.shortest f b.code)
  rw [text_of_isFinite h, hwrite]
  cases b.negative with
  | true =>
    refine ⟨'-' :: whole, mark, body, last, rfl, ?_, hmark, hlast⟩
    exact List.forall_mem_cons.mpr ⟨Or.inr rfl, fun c hc => Or.inl (hdigits c hc)⟩
  | false => exact ⟨whole, mark, body, last, rfl, fun c hc => Or.inl (hdigits c hc), hmark, hlast⟩

/-! ### Reading -/

theorem ofText?_of_isInfinite {b : Binary f} (h : b.isInfinite = true) :
    ofText? f b.text = some b := by
  have hb : b = infinity f b.negative :=
    eq_of_isInfinite h (isInfinite_infinity ..) (negative_ofCode ..).symm
  rw [text_of_isInfinite h]
  cases hs : b.negative <;> rw [hs] at hb <;> rw [hb] <;> rfl

/-- A text that begins with a digit has no sign. -/
theorem read?_of_isDigit {c : Char} (h : c.isDigit = true) (s : List Char) :
    Numeral.read? (c :: s) = (Numeral.readUnsigned? (c :: s)).map (false, ·) := by
  unfold Numeral.read?
  split
  · exact absurd h (by simp_all)
  · rfl

/-- The decimal that is read has the number of the shortest one. -/
theorem read?_text {b : Binary f} (h : b.isFinite = true) :
    ∃ d : Decimal, Numeral.read? b.text = some (b.negative, d) ∧
      d.toRat = (Decimal.shortest f b.code).toRat := by
  obtain ⟨d, hread, hnum⟩ := Numeral.readUnsigned?_write (Decimal.shortest f b.code)
  refine ⟨d, ?_, hnum⟩
  rw [text_of_isFinite h]
  cases b.negative with
  | true => simp [Numeral.read?, hread]
  | false =>
    obtain ⟨whole, mark, body, last, hwrite, hdigits, hne, -⟩ :=
      Numeral.exists_write_eq_append (Decimal.shortest f b.code)
    obtain ⟨c, rest, rfl⟩ := List.exists_cons_of_ne_nil hne
    have hc := hdigits c List.mem_cons_self
    rw [hwrite, List.cons_append] at hread ⊢
    simp [read?_of_isDigit hc, hread]

theorem toBinary_of_toRat_eq {b : Binary f} (h : b.isFinite = true) {d : Decimal}
    (hnum : d.toRat = (Decimal.shortest f b.code).toRat) : d.toBinary f b.negative = b := by
  rw [Decimal.toBinary, Decimal.round_congr hnum,
    Decimal.round_shortest (code_lt_of_isFinite h).le, ofCode_negative_code]

theorem ofText?_of_isFinite {b : Binary f} (h : b.isFinite = true) :
    ofText? f b.text = some b := by
  obtain ⟨d, hread, hnum⟩ := read?_text h
  obtain ⟨whole, mark, body, last, htext, -, -, hlast⟩ := exists_text_eq_append h
  -- a digit is last, which is not so in the words
  have hword : ∀ t : List Char, ∀ c, c.isDigit = false → b.text ≠ t ++ [c] := by
    intro t c hc heq
    rw [htext, ← List.cons_append, ← List.append_assoc] at heq
    have := (List.append_inj' heq rfl).2
    simp_all
  have hnan : b.text ≠ "NaN".toList := hword ['N', 'a'] 'N' rfl
  have hinf : b.text ≠ "inf".toList := hword ['i', 'n'] 'f' rfl
  have hneg : b.text ≠ "-inf".toList := hword ['-', 'i', 'n'] 'f' rfl
  rw [ofText?, if_neg hnan, if_neg hinf, if_neg hneg, hread, Option.map_some,
    toBinary_of_toRat_eq h hnum]

/-- **The text of a datum is read back**, a NaN as the canonical one. -/
theorem ofText?_text (b : Binary f) : ofText? f b.text = some b.quieten := by
  rw [quieten]
  cases hb : b.isNaN with
  | true =>
    rw [text_of_isNaN hb]
    rfl
  | false =>
    rcases isInfinite_or_isFinite hb with hi | hfin
    · exact ofText?_of_isInfinite hi
    · exact ofText?_of_isFinite hfin

/-! ### Decimals that round to a datum -/

section

variable {b : Binary f} {d : Decimal} {q : ℚ}

/-- What rounds to a finite datum does not overflow. -/
theorem RoundsTo.abs_lt (h : RoundsTo q b) (hb : b.isFinite = true) : |q| < f.overflowBound := by
  by_contra hge
  have hinf := h.overflow (not_lt.mp hge)
  rw [isInfinite_of_isFinite hb] at hinf
  exact Bool.false_ne_true hinf

/-- The quotient that is rounded counts the number in quanta. -/
theorem numerator_mul_scale_div (d : Decimal) (f : Format) :
    ((d.numerator * f.scale : ℕ) : ℚ) / d.denominator = d.toRat * f.scale := by
  rw [Decimal.toRat_eq_div, Nat.cast_mul, mul_div_right_comm]

/-- **If a number rounds to a datum, a decimal of its magnitude rounds to the code.** Decimals are
unsigned and round to codes; this and the lemma after it carry statements on codes over to data. -/
theorem RoundsTo.round_eq (h : RoundsTo q b) (hb : b.isFinite = true) (hd : d.toRat = |q|) :
    d.round f = b.code := by
  have hnear := h.isNearest (h.abs_lt hb)
  rw [← hd, ← numerator_mul_scale_div] at hnear
  rw [Decimal.round, roundQuotient_eq_of_isNearest d.denominator_pos hnear,
    Nat.min_eq_left (code_lt_of_isFinite hb).le]

theorem abs_sign_mul (b : Binary f) (q : ℚ) : |b.sign * q| = |q| := by
  simp [abs_mul, abs_sign]

/-- **If a decimal rounds to the code, its number rounds to the datum**, with the sign of that. -/
theorem roundsTo_of_round_eq (h : d.round f = b.code) : RoundsTo (b.sign * d.toRat) b := by
  have hquot : ((d.numerator * f.scale : ℕ) : ℚ) / d.denominator
      = |b.sign * d.toRat| * f.scale := by
    rw [abs_sign_mul, abs_of_nonneg d.toRat_nonneg, numerator_mul_scale_div]
  have hsign : b.sign * d.toRat ≠ 0 → b.negative = decide (b.sign * d.toRat < 0) := by
    intro hne
    have hpos : 0 < d.toRat := d.toRat_nonneg.lt_of_ne' (right_ne_zero_of_mul hne)
    rw [sign]
    cases b.negative with
    | true => simpa using hpos
    | false => simpa using hpos.le
  have hround := roundsTo_ofCode_roundQuotient d.denominator_pos hquot hsign
  rwa [← Decimal.round, h, ofCode_negative_code] at hround

/-! ### Shortest decimals -/

/-- `q` has at most `n` digits and rounds to the datum. No number of fewer digits rounds to the
datum, and none of as many that does is nearer to it. -/
structure IsShortestDecimal (b : Binary f) (n : ℕ) (q : ℚ) : Prop where
  hasDigits : HasDigits n q
  roundsTo : RoundsTo q b
  shortest : ∀ m < n, ∀ p, HasDigits m p → ¬ RoundsTo p b
  closest : ∀ p, HasDigits n p → RoundsTo p b → |q - b.toRat| ≤ |p - b.toRat|

/-- The number of a datum is that of its code, with the sign. -/
theorem toRat_eq_sign_mul_exact (b : Binary f) :
    b.toRat = b.sign * (Decimal.exact f b.code).toRat := by
  rw [toRat_eq_sign_mul, Decimal.toRat_exact]

/-- Without the signs two numbers are no farther from each other. -/
theorem abs_sub_exact_le (b : Binary f) (p : ℚ) :
    |(|p|) - (Decimal.exact f b.code).toRat| ≤ |p - b.toRat| := by
  have habs : (Decimal.exact f b.code).toRat = |b.toRat| := by
    rw [abs_toRat, Decimal.toRat_exact]
  rw [habs]
  exact abs_abs_sub_abs_le p b.toRat

theorem isShortestDecimal_of_isShortest (hb : b.isFinite = true) {n : ℕ}
    (h : Decimal.IsShortest f b.code n d) : b.IsShortestDecimal n (b.sign * d.toRat) where
  hasDigits := by
    rw [HasDigits, abs_sign_mul]
    exact h.hasDigits
  roundsTo := roundsTo_of_round_eq h.round
  shortest m hm p hp hround := by
    obtain ⟨e, he, hnum⟩ := hp
    exact h.shortest m hm e he (hround.round_eq hb hnum)
  closest p hp hround := by
    obtain ⟨e, he, hnum⟩ := hp
    calc |b.sign * d.toRat - b.toRat|
        = |d.toRat - (Decimal.exact f b.code).toRat| := by
          rw [toRat_eq_sign_mul_exact, ← mul_sub, abs_sign_mul]
      _ ≤ |e.toRat - (Decimal.exact f b.code).toRat| := h.closest e he (hround.round_eq hb hnum)
      _ ≤ |p - b.toRat| := hnum ▸ abs_sub_exact_le b p

/-! ### Numerals -/

/-- A text with the sign of a datum in front. -/
def withSign (b : Binary f) (s : List Char) : List Char :=
  if b.negative then '-' :: s else s

/-- A numeral without sign shows a datum: with the sign it stands for a decimal that rounds back to
the datum, a zero included, and that is a shortest one; and its form is that of the number. -/
structure IsShownAs (b : Binary f) (numeral : List Char) (d : Decimal) : Prop where
  read : Numeral.read? (b.withSign numeral) = some (b.negative, d)
  toBinary : d.toBinary f b.negative = b
  shortest : ∃ n, b.IsShortestDecimal n (b.sign * d.toRat)
  positional : Numeral.InPositionalForm numeral ↔ Numeral.IsModerate d.toRat
  scientific : Numeral.InScientificForm numeral ↔ ¬ Numeral.IsModerate d.toRat

theorem text_eq_withSign (hb : b.isFinite = true) :
    b.text = b.withSign (Numeral.write (Decimal.shortest f b.code)) :=
  text_of_isFinite hb

/-- **A finite datum is shown by the numeral of its shortest decimal.** -/
theorem exists_isShownAs (hb : b.isFinite = true) :
    ∃ d, b.IsShownAs (Numeral.write (Decimal.shortest f b.code)) d := by
  obtain ⟨d, hread, hnum⟩ := read?_text hb
  have hcode := (code_lt_of_isFinite hb).le
  obtain ⟨n, hshortest⟩ := Decimal.exists_isShortest_shortest hcode
  have hreduced := Decimal.isReduced_shortest hcode
  refine ⟨d, ?_, toBinary_of_toRat_eq hb hnum, ⟨n, ?_⟩, ?_, ?_⟩
  · rw [← text_eq_withSign hb, hread]
  · exact isShortestDecimal_of_isShortest hb (hshortest.congr hnum)
  · rw [hnum, Numeral.inPositionalForm_write_iff hreduced]
  · rw [hnum, Numeral.inScientificForm_write_iff hreduced]

end

end Binary

end ConstFold
