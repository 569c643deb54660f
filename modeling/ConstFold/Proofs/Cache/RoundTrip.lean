import ConstFold.Cache.Decode
import ConstFold.Cache.Encode
import ConstFold.Proofs.Binary.Monotone
import ConstFold.Proofs.Value.Convert
import ConstFold.Value.Identity
import ConstFold.Value.Laws

/-!
# What the cache carries

A constant that is written to the cache is read back as itself, unless it is an infinity or a NaN:
trees have no such numbers, so null is written, and reading that fails.

Words do not pass through a float on their way, so none of their digits is lost. Data travel in the
double format, to which a single float is converted without loss, and from which it comes back
because rounding leaves alone what the format holds.

## Main definitions

* `Cache.IsPortable` — a constant that trees have numbers for

## Main results

* `decodeSigned?_toInt`, `decodeUnsigned?_toNat`, `decodeBinary?_of_isFinite` — payloads
* `decodeValue?_encodeValue` — the constants that are read back, and what becomes of the others
-/

namespace ConstFold

namespace Cache

/-! ### Payloads -/

theorem decodeSigned?_toInt {w : ℕ} (v : BitVec w) : decodeSigned? w (.int v.toInt) = some v :=
  Word.ofInt_signed_eq_some_iff.mpr rfl

theorem decodeUnsigned?_toNat {w : ℕ} (v : BitVec w) :
    decodeUnsigned? w (.int v.toNat) = some v :=
  Word.ofInt_unsigned_eq_some_iff.mpr rfl

/-- A finite datum of a format within the double one comes back. -/
theorem decodeBinary?_of_isFinite {f : Format} (hf : f.Within .binary64) {b : Binary f}
    (h : b.isFinite = true) : decodeBinary? f (encodeBinary b) = some b := by
  rw [encodeBinary, if_pos h, decodeBinary?,
    Binary.convert_convert_self hf (Binary.isNaN_of_isFinite h)]

theorem decodeMemory?_encodeMemory (m : Memory) : decodeMemory? (encodeMemory m) = some m := by
  cases m
  rfl

/-! ### Constants -/

/-- A constant that is no infinity and no NaN. A tree has numbers for the payloads of these alone;
the others are written as null, which is not read back. -/
def IsPortable (v : Value) : Prop :=
  v.isNaN = false ∧ v.isInfinite = false

theorem isPortable_iff_isFinite {v : Value} {f : Format} {b : Binary f}
    (hnan : v.isNaN = b.isNaN) (hinf : v.isInfinite = b.isInfinite) :
    IsPortable v ↔ b.isFinite = true := by
  rw [IsPortable, hnan, hinf]
  constructor
  · rintro ⟨hnan, hinf⟩
    exact (Binary.isInfinite_or_isFinite hnan).resolve_left (by simp [hinf])
  · exact fun h => ⟨Binary.isNaN_of_isFinite h, Binary.isInfinite_of_isFinite h⟩

/-- The tag of a kind selects the reader of that kind. -/
theorem decodeValue?_tagged (k : Kind) (content : Tree) :
    decodeValue? (.tagged k.tag content) = decodePayload? content k := by
  rw [Tree.tagged, decodeValue?, Kind.ofTag?_tag, Option.bind_some]

theorem decodePayload?_of_isPortable {v : Value} (h : IsPortable v) :
    decodePayload? (encodePayload v) v.kind = some v := by
  cases v with
  | int32 v => exact congrArg (Option.map Value.int32) (decodeSigned?_toInt v)
  | int64 v => exact congrArg (Option.map Value.int64) (decodeSigned?_toInt v)
  | float32 b =>
    have hb : b.isFinite = true := (isPortable_iff_isFinite rfl rfl).mp h
    exact congrArg (Option.map Value.float32)
      (decodeBinary?_of_isFinite binary32_within_binary64 hb)
  | float64 b =>
    have hb : b.isFinite = true := (isPortable_iff_isFinite rfl rfl).mp h
    exact congrArg (Option.map Value.float64) (decodeBinary?_of_isFinite (Format.within_refl _) hb)
  | addr a =>
    have hraw := congrArg (Option.map Addr.mk) (decodeUnsigned?_toNat a.raw)
    exact congrArg (Option.map Value.addr) hraw
  | cond c => exact congrArg (Option.map Value.cond) (Condition.ofTag?_tag c)
  | memory m => exact congrArg (Option.map Value.memory) (decodeMemory?_encodeMemory m)

theorem encodePayload_of_not_isPortable {v : Value} (h : ¬ IsPortable v) :
    encodePayload v = .null ∧ decodePayload? .null v.kind = none := by
  cases v with
  | float32 b =>
    have hb : ¬ b.isFinite = true := mt (isPortable_iff_isFinite rfl rfl).mpr h
    exact ⟨if_neg hb, rfl⟩
  | float64 b =>
    have hb : ¬ b.isFinite = true := mt (isPortable_iff_isFinite rfl rfl).mpr h
    exact ⟨if_neg hb, rfl⟩
  | int32 _ | int64 _ | addr _ | cond _ | memory _ => exact absurd ⟨rfl, rfl⟩ h

/-- A single float travels as the double float of its number and its sign. -/
theorem encodePayload_float32 {b : Binary .binary32} (h : b.isFinite = true) :
    ∃ r : Binary .binary64, encodePayload (.float32 b) = .real r ∧ r.isFinite = true ∧
      r.negative = b.negative ∧ r.toRat = b.toRat := by
  have hwide := Binary.isQuotient_convert binary32_within_binary64 h
  refine ⟨b.convert .binary64, if_pos h, hwide.finite, hwide.negative, ?_⟩
  rw [hwide.toRat_eq (Format.scale_pos _), (Binary.isQuotient_self h).toRat_eq (Format.scale_pos _)]

/-- **The cache carries a constant, bit for bit, unless it is an infinity or a NaN.** For these null
is written, and reading that is an error; a single float travels as the double float of its number
and its sign. -/
theorem decodeValue?_encodeValue (v : Value) :
    ((∃ w, decodeValue? (encodeValue v) = some w ∧ w.eqBits v = true) ↔
        v.isNaN = false ∧ v.isInfinite = false) ∧
      (v.isNaN = true ∨ v.isInfinite = true →
        encodeValue v = .tagged v.kind.tag .null ∧ decodeValue? (encodeValue v) = none) ∧
      (∀ b : Binary .binary32, v = .float32 b → b.isFinite = true →
        ∃ r : Binary .binary64, encodeValue v = .tagged Kind.float32.tag (.real r) ∧
          r.isFinite = true ∧ r.negative = b.negative ∧ r.toRat = b.toRat) := by
  have hlost : ¬ IsPortable v →
      encodeValue v = .tagged v.kind.tag .null ∧ decodeValue? (encodeValue v) = none := by
    intro h
    obtain ⟨hnull, hnone⟩ := encodePayload_of_not_isPortable h
    rw [encodeValue, decodeValue?_tagged, hnull]
    exact ⟨rfl, hnone⟩
  refine ⟨⟨fun ⟨w, hw, _⟩ => ?_, fun h => ⟨v, ?_, Value.eqBits_self v⟩⟩, fun h => hlost ?_, ?_⟩
  · by_contra h
    rw [(hlost h).2] at hw
    exact absurd hw (by simp)
  · rw [encodeValue, decodeValue?_tagged]
    exact decodePayload?_of_isPortable h
  · rintro ⟨hnan, hinf⟩
    simp [hnan, hinf] at h
  · rintro b rfl hb
    obtain ⟨r, hr, hrest⟩ := encodePayload_float32 hb
    exact ⟨r, congrArg (Tree.tagged Kind.float32.tag) hr, hrest⟩

/-- An infinity is lost. The least negative number of the single format is below the normal numbers
of that format, but not below those of the double one. -/
theorem decodeValue?_encodeValue_extreme :
    (Value.float64 (.infinity _ true)).isInfinite = true ∧
      encodeValue (.float64 (.infinity _ true)) = .tagged "Float64" .null ∧
      decodeValue? (encodeValue (.float64 (.infinity _ true))) = none ∧
      (Binary.ofCode .binary32 true 1).isFinite = true ∧
      (∃ r : Binary .binary64,
        encodeValue (.float32 (.ofCode _ true 1)) = .tagged "Float32" (.real r) ∧
          r.isFinite = true ∧ r.negative = (Binary.ofCode .binary32 true 1).negative ∧
          r.toRat = (Binary.ofCode .binary32 true 1).toRat) ∧
      ∃ w, decodeValue? (encodeValue (.float32 (.ofCode _ true 1))) = some w ∧
        w.eqBits (.float32 (.ofCode _ true 1)) = true := by
  have hinf : (Value.float64 (.infinity _ true)).isInfinite = true := by decide
  have hfin : (Binary.ofCode .binary32 true 1).isFinite = true := by decide
  have hportable : IsPortable (.float32 (.ofCode _ true 1)) := ⟨by decide, by decide⟩
  obtain ⟨-, hlost, -⟩ := decodeValue?_encodeValue (.float64 (.infinity _ true))
  obtain ⟨hback, -, hwide⟩ := decodeValue?_encodeValue (.float32 (.ofCode _ true 1))
  obtain ⟨hnull, hnone⟩ := hlost (Or.inr hinf)
  exact ⟨hinf, hnull, hnone, hfin, hwide _ rfl hfin, hback.mpr hportable⟩

end Cache

end ConstFold
