import ConstFold.Proofs.Binary.Text
import ConstFold.Value.Identity
import ConstFold.Value.Laws
import ConstFold.Value.Text

/-!
# Display texts

A display text shows one constant, up to the payload of a NaN. It is read in two steps. What follows
the digits and signs that a text begins with tells the kind: nothing for an `int32`, the suffix `L`
for an `int64`, the `x` of an address, a point, an exponent or a word for the floats. Then the
payload is read in the way of that kind.

Two texts come close to each other. An infinity of the kind `float64` ends in the letter that marks
the kind `float32`, and the name of the outcome `eq` begins with the mark of an exponent.

The text of a finite float is a numeral in the float's own format: a single is not widened before it
is shown, so what reads back, and what is shortest, is said of singles. Its suffix stands behind the
numeral and is no part of it.

## Main definitions

* `Value.kindOfText` — the kind of the constant that a text shows
* `Value.ofText?` — the constant that a text shows
* `Value.quieten` — a constant with every NaN made the canonical one

## Main results

* `ofText?_displayChars` — display texts are read back
* `display_eq_iff` — display texts tell constants apart
* `display_shortest` — the display text of a finite float
-/

namespace ConstFold

namespace Value

/-! ### Reading a constant -/

/-- What follows the digits and signs that a text begins with. -/
def suffix (s : List Char) : List Char :=
  s.dropWhile fun c => c.isDigit || c == '-'

/-- The kind of the constants whose texts go on with `t` after the leading digits and signs. -/
def kindOfSuffix (t : List Char) : Kind :=
  match t.head? with
  | none => .int32
  | some 'L' => .int64
  | some 'x' => .addr
  | some 'c' => .memory
  | some 'l' | some 'g' | some 'u' => .cond
  | _ =>
    if t = "eq".toList then .cond
    else if t ≠ "inf".toList ∧ t.getLast? = some 'f' then .float32
    else .float64

def kindOfText (s : List Char) : Kind :=
  kindOfSuffix (suffix s)

/-- The constant of a kind that a text shows. -/
def ofTextAs? (s : List Char) : Kind → Option Value
  | .int32 => (Radix.readInt? s).map fun n => int32 (.ofInt 32 n)
  | .int64 => (Radix.readInt? s.dropLast).map fun n => int64 (.ofInt 64 n)
  | .float32 => (Binary.ofText? _ s.dropLast).map float32
  | .float64 => (Binary.ofText? _ s).map float64
  | .addr => (Radix.read? 16 (s.drop 2)).map fun n => addr ⟨.ofNat 64 n⟩
  | .cond => (Condition.ofName? (String.ofList s)).map cond
  | .memory => some (memory .constant)
  | .void | .tuple => none

def ofText? (s : List Char) : Option Value :=
  ofTextAs? s (kindOfText s)

/-- A constant with every NaN made the canonical one of its kind. -/
def quieten : Value → Value
  | float32 b => float32 b.quieten
  | float64 b => float64 b.quieten
  | v => v

/-! ### The kind of a text -/

theorem suffix_append {s : List Char} (h : ∀ c ∈ s, c.isDigit = true ∨ c = '-') (t : List Char) :
    suffix (s ++ t) = suffix t := by
  refine List.dropWhile_append_of_pos fun c hc => ?_
  simpa using h c hc

theorem suffix_writeInt_append (n : ℤ) (t : List Char) :
    suffix (Radix.writeInt n ++ t) = suffix t := by
  have hdigits := Radix.isDigit_of_mem_write n.natAbs
  refine suffix_append ?_ t
  rw [Radix.writeInt]
  split_ifs
  · exact List.forall_mem_cons.mpr ⟨Or.inr rfl, fun c hc => Or.inl (hdigits c hc)⟩
  · exact fun c hc => Or.inl (hdigits c hc)

theorem kindOfText_writeInt (n : ℤ) : kindOfText (Radix.writeInt n) = .int32 := by
  rw [kindOfText, ← List.append_nil (Radix.writeInt n), suffix_writeInt_append]
  rfl

theorem kindOfText_writeInt_append (n : ℤ) : kindOfText (Radix.writeInt n ++ ['L']) = .int64 := by
  rw [kindOfText, suffix_writeInt_append]
  rfl

/-- Behind a point or the mark of an exponent it is the last character that tells the kind. -/
theorem kindOfSuffix_of_mark {mark last : Char} {body : List Char}
    (hmark : mark = '.' ∨ mark = 'e') (hlast : last ≠ 'q') :
    kindOfSuffix (mark :: (body ++ [last])) = if last = 'f' then .float32 else .float64 := by
  have hget : (mark :: (body ++ [last])).getLast? = some last := by
    rw [← List.cons_append, List.getLast?_concat]
  have heq : mark :: (body ++ [last]) ≠ "eq".toList := fun h => by
    rw [h] at hget
    exact hlast (Option.some.inj hget).symm
  have hinf : mark :: (body ++ [last]) ≠ "inf".toList := fun h => by
    have hhead : mark = 'i' := (List.cons.inj h).1
    rcases hmark with rfl | rfl <;> exact absurd hhead (by decide)
  rw [kindOfSuffix, hget]
  simp only [heq, hinf, if_false, not_false_eq_true, true_and, Option.some.injEq, ne_eq]
  rcases hmark with rfl | rfl <;> rfl

section

variable {f : Format} (b : Binary f)

/-- After the digits of a finite datum comes a point or the mark of an exponent, and a digit is
last. -/
theorem exists_suffix_text (h : b.isFinite = true) :
    ∃ mark body last, (∀ t, suffix (b.text ++ t) = mark :: (body ++ [last] ++ t)) ∧
      (mark = '.' ∨ mark = 'e') ∧ last.isDigit = true := by
  obtain ⟨whole, mark, body, last, htext, hwhole, hmark, hlast⟩ := Binary.exists_text_eq_append h
  refine ⟨mark, body, last, fun t => ?_, hmark, hlast⟩
  rw [htext, List.append_assoc, suffix_append hwhole]
  rcases hmark with rfl | rfl <;> rfl

theorem kindOfText_text_append : kindOfText (b.text ++ ['f']) = .float32 := by
  cases hb : b.isNaN with
  | true => rw [Binary.text_of_isNaN hb]; rfl
  | false =>
    rcases Binary.isInfinite_or_isFinite hb with hi | hfin
    · rw [Binary.text_of_isInfinite hi]
      cases b.negative <;> rfl
    · obtain ⟨mark, body, last, hsuffix, hmark, -⟩ := exists_suffix_text b hfin
      rw [kindOfText, hsuffix, kindOfSuffix_of_mark hmark (by decide), if_pos rfl]

theorem kindOfText_text : kindOfText b.text = .float64 := by
  cases hb : b.isNaN with
  | true => rw [Binary.text_of_isNaN hb]; rfl
  | false =>
    rcases Binary.isInfinite_or_isFinite hb with hi | hfin
    · rw [Binary.text_of_isInfinite hi]
      cases b.negative <;> rfl
    · obtain ⟨mark, body, last, hsuffix, hmark, hlast⟩ := exists_suffix_text b hfin
      have hne : ∀ c : Char, c.isDigit = false → last ≠ c := by
        rintro c hc rfl
        rw [hlast] at hc
        exact absurd hc (by decide)
      rw [kindOfText, ← List.append_nil b.text, hsuffix, List.append_nil,
        kindOfSuffix_of_mark hmark (hne 'q' rfl), if_neg (hne 'f' rfl)]

end

theorem kindOfText_displayChars (v : Value) : kindOfText v.displayChars = v.kind := by
  cases v with
  | int32 v => exact kindOfText_writeInt v.toInt
  | int64 v => exact kindOfText_writeInt_append v.toInt
  | float32 b => exact kindOfText_text_append b
  | float64 b => exact kindOfText_text b
  | addr a => rfl
  | cond c => cases c <;> rfl
  | memory m => cases m; rfl

/-! ### Reading back -/

theorem ofTextAs?_int32 (v : BitVec 32) :
    ofTextAs? (Radix.writeInt v.toInt) .int32 = some (int32 v) := by
  rw [ofTextAs?, Radix.readInt?_writeInt, Option.map_some, BitVec.ofInt_toInt]

theorem ofTextAs?_int64 (v : BitVec 64) :
    ofTextAs? (Radix.writeInt v.toInt ++ ['L']) .int64 = some (int64 v) := by
  rw [ofTextAs?, List.dropLast_concat, Radix.readInt?_writeInt, Option.map_some,
    BitVec.ofInt_toInt]

theorem ofTextAs?_float32 (b : Binary .binary32) :
    ofTextAs? (b.text ++ ['f']) .float32 = some (float32 b.quieten) := by
  rw [ofTextAs?, List.dropLast_concat, Binary.ofText?_text, Option.map_some]

theorem ofTextAs?_float64 (b : Binary .binary64) :
    ofTextAs? b.text .float64 = some (float64 b.quieten) := by
  rw [ofTextAs?, Binary.ofText?_text, Option.map_some]

theorem ofTextAs?_addr (a : Addr) : ofTextAs? a.displayChars .addr = some (addr a) := by
  have hread : Radix.read? 16 (a.displayChars.drop 2) = some a.raw.toNat :=
    Radix.read?_write (by decide) (by decide) _
  rw [ofTextAs?, hread, Option.map_some, BitVec.ofNat_toNat, BitVec.setWidth_eq]

/-- **A display text is read back**, a NaN as the canonical one, and without knowing its kind: the
characters after the leading digits and signs tell the kinds apart. -/
theorem ofText?_displayChars (v : Value) : ofText? v.displayChars = some v.quieten := by
  rw [ofText?, kindOfText_displayChars]
  cases v with
  | int32 v => exact ofTextAs?_int32 v
  | int64 v => exact ofTextAs?_int64 v
  | float32 b => exact ofTextAs?_float32 b
  | float64 b => exact ofTextAs?_float64 b
  | addr a => exact ofTextAs?_addr a
  | cond c => cases c <;> decide
  | memory m => cases m; rfl

/-! ### Telling constants apart -/

theorem quieten_eq_self {v : Value} (h : v.isNaN = false) : v.quieten = v := by
  cases v with
  | float32 b => exact congrArg float32 (if_neg (Bool.eq_false_iff.mp h))
  | float64 b => exact congrArg float64 (if_neg (Bool.eq_false_iff.mp h))
  | int32 _ | int64 _ | addr _ | cond _ | memory _ => rfl

/-- All NaNs of a kind become one. -/
theorem quieten_eq_nan {v : Value} (h : v.isNaN = true) :
    v.quieten = if v.kind = .float32 then float32 (.nan _) else float64 (.nan _) := by
  cases v with
  | float32 b => exact congrArg float32 (if_pos h)
  | float64 b => exact congrArg float64 (if_pos h)
  | int32 _ | int64 _ | addr _ | cond _ | memory _ => exact absurd h Bool.false_ne_true

theorem kind_quieten (v : Value) : v.quieten.kind = v.kind := by
  cases v <;> rfl

theorem isNaN_quieten (v : Value) : v.quieten.isNaN = v.isNaN := by
  cases h : v.isNaN with
  | false => rw [quieten_eq_self h, h]
  | true =>
    rw [quieten_eq_nan h]
    split_ifs
    · exact Binary.isNaN_nan .binary32
    · exact Binary.isNaN_nan .binary64

theorem quieten_eq_iff (a b : Value) :
    a.quieten = b.quieten ↔ a = b ∨ a.kind = b.kind ∧ a.isNaN = true ∧ b.isNaN = true := by
  constructor
  · intro h
    have hkind : a.kind = b.kind := by rw [← kind_quieten a, h, kind_quieten]
    have hnan : a.isNaN = b.isNaN := by rw [← isNaN_quieten a, h, isNaN_quieten]
    cases ha : a.isNaN with
    | true => exact Or.inr ⟨hkind, rfl, hnan ▸ ha⟩
    | false =>
      rw [quieten_eq_self ha, quieten_eq_self (hnan ▸ ha)] at h
      exact Or.inl h
  · rintro (rfl | ⟨hkind, ha, hb⟩)
    · rfl
    · rw [quieten_eq_nan ha, quieten_eq_nan hb, hkind]

theorem displayChars_quieten (v : Value) : v.quieten.displayChars = v.displayChars := by
  cases v with
  | float32 b => exact congrArg (· ++ ['f']) b.text_quieten
  | float64 b => exact b.text_quieten
  | int32 _ | int64 _ | addr _ | cond _ | memory _ => rfl

theorem displayChars_eq_iff (a b : Value) :
    a.displayChars = b.displayChars ↔ a.quieten = b.quieten := by
  constructor
  · intro h
    rw [← Option.some.injEq, ← ofText?_displayChars, ← ofText?_displayChars, h]
  · intro h
    rw [← displayChars_quieten a, h, displayChars_quieten]

/-- **Display texts tell constants apart**, of one kind or of two, down to the sign of a zero. Only
the NaNs of a kind share their text. -/
theorem display_eq_iff (a b : Value) :
    a.display = b.display ↔
      a.eqBits b = true ∨ a.kind = b.kind ∧ a.isNaN = true ∧ b.isNaN = true := by
  rw [display, display, String.ofList_inj, displayChars_eq_iff, quieten_eq_iff, eqBits_iff_eq]

/-- The least positive number is told apart in both float kinds. -/
example : (float32 (.ofCode _ false 1)).display = "1e-45f" ∧
    (float64 (.ofCode _ false 1)).display = "5e-324" := by
  decide +kernel

/-! ### Shortest texts -/

/-- **A finite float is displayed by a shortest decimal** that reads back in its own format, in the
form that the number of the decimal asks for. -/
theorem display_shortest :
    (∀ b : Binary .binary32, b.isFinite = true → ∃ numeral d,
      (float32 b).display = String.ofList (b.withSign numeral ++ ['f']) ∧
        b.IsShownAs numeral d) ∧
    ∀ b : Binary .binary64, b.isFinite = true → ∃ numeral d,
      (float64 b).display = String.ofList (b.withSign numeral) ∧ b.IsShownAs numeral d := by
  constructor
  · intro b hb
    obtain ⟨d, hd⟩ := Binary.exists_isShownAs hb
    refine ⟨_, d, ?_, hd⟩
    rw [← Binary.text_eq_withSign hb]
    rfl
  · intro b hb
    obtain ⟨d, hd⟩ := Binary.exists_isShownAs hb
    refine ⟨_, d, ?_, hd⟩
    rw [← Binary.text_eq_withSign hb]
    rfl

/-- The single nearest to a tenth is shown as a tenth, and the greatest double below zero by one
digit and an exponent. -/
theorem display_shortest_tenth :
    (Binary.ofCode .binary32 false 0x3dcccccd).isFinite = true ∧
      (float32 (.ofCode _ false 0x3dcccccd)).display = "0.1f" ∧
      (∃ d, (Binary.ofCode .binary32 false 0x3dcccccd).IsShownAs "0.1".toList d) ∧
      (Binary.ofCode .binary64 true 1).isFinite = true ∧
      (float64 (.ofCode _ true 1)).display = "-5e-324" ∧
      ∃ d, (Binary.ofCode .binary64 true 1).IsShownAs "5e-324".toList d := by
  have htenth : (Binary.ofCode .binary32 false 0x3dcccccd).isFinite = true := by decide
  have hleast : (Binary.ofCode .binary64 true 1).isFinite = true := by decide
  have hshow : (float32 (.ofCode _ false 0x3dcccccd)).display = "0.1f" := by decide +kernel
  have hshow' : (float64 (.ofCode _ true 1)).display = "-5e-324" := by decide +kernel
  obtain ⟨numeral, d, hdisplay, hd⟩ := display_shortest.1 _ htenth
  obtain ⟨numeral', d', hdisplay', hd'⟩ := display_shortest.2 _ hleast
  have hnumeral : numeral ++ ['f'] = "0.1".toList ++ ['f'] :=
    String.ofList_inj.mp (hdisplay.symm.trans hshow)
  have hnumeral' : '-' :: numeral' = '-' :: "5e-324".toList :=
    String.ofList_inj.mp (hdisplay'.symm.trans hshow')
  obtain rfl := List.append_cancel_right hnumeral
  obtain rfl := List.cons_inj_right _ |>.mp hnumeral'
  exact ⟨htenth, hshow, ⟨d, hd⟩, hleast, hshow', ⟨d', hd'⟩⟩

end Value

end ConstFold
